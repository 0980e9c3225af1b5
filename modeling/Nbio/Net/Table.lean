import Nbio.Net.Registry

/-!
# What a step leaves of the registry

For each part of the state, where what is there after a step comes from: a link follows one from
before or is new, a descriptor is owned as before or by a new link, the table has what it had or a
link that is being added, and a poller has entries from before or such as were just reported.
-/

namespace Nbio.Net

open Nbio.Go Nbio.Lib List Option

namespace Registry

variable {s s' : State} {e : Event} {i q : Nat} {l : Link} {p : Poller} {w : Work}

/-! ## Links -/

structure Link.Follows (l l' : Link) : Prop where
  fd : l'.fd = l.fd
  typ : l'.typ = l.typ
  deferred : l'.deferred = l.deferred
  fdOpen : l'.fdOpen = true → l.fdOpen = true
  closed : l.closed = true → l'.closed = true
  p : l.p = true → l'.p = true
  opened : l.opened = true → l'.opened = true
  connect : l.connect ≠ .inprogress → l'.connect = l.connect
  onConnected : l'.onConnected = true → l.onConnected = true

theorem Link.Follows.refl (l : Link) : l.Follows l :=
  ⟨rfl, rfl, rfl, id, id, id, id, fun _ => rfl, id⟩

variable {l' : Link}

theorem Link.Follows.close (h : l.Follows l') : l.Follows l'.close := by
  unfold Link.close
  split
  · exact h
  · exact ⟨h.fd, h.typ, h.deferred, h.fdOpen, fun _ => rfl, h.p, h.opened, h.connect, h.onConnected⟩

theorem Link.report_follows (l : Link) : l.Follows l.report :=
  ⟨rfl, rfl, rfl, id, id, id, id, fun _ => rfl, fun h => absurd h Bool.false_ne_true⟩

@[simp] theorem Link.close_onConnected (l : Link) : l.close.onConnected = l.onConnected := by
  unfold Link.close
  split <;> rfl

theorem State.put_self {m : Link} (h : (s.put i l').links[i]? = some m) : m = l' := by
  obtain ⟨-, rfl⟩ | ⟨hne, -⟩ := of_getElem?_set h
  · rfl
  · exact absurd rfl hne

variable {P : Nat → Link → Prop}

theorem State.forall_put_ne (h : ∀ k m, k ≠ i → s.links[k]? = some m → P k m) (hl' : P i l') :
    ∀ k m, (s.put i l').links[k]? = some m → P k m := by
  intro k m hm
  obtain ⟨rfl, rfl⟩ | ⟨hk, hm⟩ := of_getElem?_set hm
  · exact hl'
  · exact h k m hk hm

theorem State.forall_put (h : ∀ k m, s.links[k]? = some m → P k m) (hl' : P i l') :
    ∀ k m, (s.put i l').links[k]? = some m → P k m :=
  State.forall_put_ne (fun k m _ => h k m) hl'

theorem State.forall_add (h : ∀ k m, s.links[k]? = some m → P k m) (hl' : P s.links.length l') :
    ∀ k m, (s.add l').links[k]? = some m → P k m := by
  intro k m hm
  obtain ⟨rfl, rfl⟩ | hm := of_getElem?_append hm
  · exact hl'
  · exact h k m hm

theorem Step.link (h : Step s e s') : ∀ k m, s'.links[k]? = some m →
    (∃ m₀, s.links[k]? = some m₀ ∧ m₀.Follows m) ∨
    (k = s.links.length ∧ (m.fdOpen = true → s.ownerOf m.fd = none)) := by
  have hsame : ∀ k m, s.links[k]? = some m → (∃ m₀, s.links[k]? = some m₀ ∧ m₀.Follows m) ∨
      (k = s.links.length ∧ (m.fdOpen = true → s.ownerOf m.fd = none)) :=
    fun k m hm => .inl ⟨m, hm, .refl m⟩
  cases h with
  | accept hfree _ => exact State.forall_add hsame (.inr ⟨rfl, fun _ => hfree⟩)
  | dial hfree _ => exact State.forall_add hsame (.inr ⟨rfl, fun _ => hfree⟩)
  | readUDP _ _ _ _ => exact State.forall_add hsame (.inr ⟨rfl, fun h => by cases h⟩)
  | stop _ => exact hsame
  | wait _ _ _ => exact hsame
  | skip _ _ _ _ => exact hsame
  | next _ _ _ _ _ => exact hsame
  | handle hp hcurrent hl heffect =>
    cases heffect with
    | none _ => exact hsame
    | task _ => exact hsame
    | report _ _ _ => exact State.forall_put hsame (.inl ⟨_, hl, Link.report_follows _⟩)
    | close _ => exact State.forall_put hsame (.inl ⟨_, hl, (Link.Follows.refl _).close⟩)
  | asyncRead _ hl heffect =>
    obtain rfl | rfl := heffect
    · exact hsame
    · exact State.forall_put hsame (.inl ⟨_, hl, (Link.Follows.refl _).close⟩)
  | addConnLimit hl | close hl | dialTimeout hl =>
    exact State.forall_put hsame (.inl ⟨_, hl, (Link.Follows.refl _).close⟩)
  | addReadFail hl | addDialerLimit hl | addReadWriteFail hl =>
    exact State.forall_put hsame
      (.inl ⟨_, hl, Link.Follows.close ⟨rfl, rfl, rfl, id, id, id, id, fun _ => rfl, id⟩⟩)
  | closeFd hl _ =>
    exact State.forall_put hsame
      (.inl ⟨_, hl, rfl, rfl, rfl, fun h => absurd h Bool.false_ne_true, id, id, id,
        fun _ => rfl, id⟩)
  | onClose _ hl =>
    exact State.forall_put hsame (.inl ⟨_, hl, rfl, rfl, rfl, id, id, id, id, fun _ => rfl, id⟩)
  | onConnected _ hl => exact State.forall_put hsame (.inl ⟨_, hl, Link.report_follows _⟩)
  | connected hl hat =>
    exact State.forall_put hsame
      (.inl ⟨_, hl, rfl, rfl, rfl, id, id, id, id, fun h => absurd hat h, id⟩)
  | addConn hl | addDialer hl =>
    exact State.forall_put hsame
      (.inl ⟨_, hl, rfl, rfl, rfl, id, id, fun _ => rfl, id, fun _ => rfl, id⟩)
  | onOpen hl | onOpenUDP hl =>
    exact State.forall_put hsame
      (.inl ⟨_, hl, rfl, rfl, rfl, id, id, id, fun _ => rfl, fun _ => rfl, id⟩)
  | onUDPListen hl | setConn hl | addRead hl | addReadWrite hl | dialFailed hl | dialDeferred hl
  | dialed hl | deleteConn hl | deleteNone hl =>
    exact State.forall_put hsame (.inl ⟨_, hl, rfl, rfl, rfl, id, id, id, id, fun _ => rfl, id⟩)

theorem Step.length_le (h : Step s e s') : s.links.length ≤ s'.links.length := by
  cases h with
  | accept | dial | readUDP => simp [State.add]
  | handle _ _ _ heffect => cases heffect <;> simp [State.setPoller, State.put, State.closeFor]
  | asyncRead _ _ heffect =>
    obtain rfl | rfl := heffect <;> simp [State.put, State.closeFor]
  | _ => simp [State.put, State.setConn, State.setPoller, State.deleteConn]

theorem Step.follows (h : Step s e s') (hl : s.links[i]? = some l) :
    ∃ l', s'.links[i]? = some l' ∧ l.Follows l' := by
  have hi := (List.getElem?_eq_some_iff.1 hl).1
  obtain ⟨l', hl'⟩ : ∃ l', s'.links[i]? = some l' :=
    ⟨_, getElem?_eq_getElem (hi.trans_le h.length_le)⟩
  obtain ⟨m, hm, hfollows⟩ | ⟨hnew, -⟩ := h.link i l' hl'
  · rw [hl] at hm
    cases hm
    exact ⟨l', hl', hfollows⟩
  · omega

def State.Owns (s : State) (i fd : Nat) : Prop :=
  ∃ l, s.links[i]? = some l ∧ l.fdOpen = true ∧ l.fd = fd

theorem State.not_owns {fd : Nat} (h : s.ownerOf fd = none) (i : Nat) : ¬ s.Owns i fd := by
  rintro ⟨l, hl, hopen, rfl⟩
  have hnone := List.findIdx?_eq_none_iff.1 h l (mem_of_getElem? hl)
  simp [hopen] at hnone

theorem Step.owns {fd : Nat} (h : Step s e s') (hi : s'.Owns i fd) :
    s.Owns i fd ∨ (i = s.links.length ∧ ∀ j, ¬ s.Owns j fd) := by
  obtain ⟨m, hm, hopen, rfl⟩ := hi
  obtain ⟨m₀, hm₀, hfollows⟩ | ⟨rfl, hfree⟩ := h.link i m hm
  · exact .inl ⟨m₀, hm₀, hfollows.fdOpen hopen, hfollows.fd.symm⟩
  · exact .inr ⟨rfl, State.not_owns (hfree hopen)⟩

theorem Step.owns_of_link {fd : Nat} (h : Step s e s') (hl : s.links[i]? = some l)
    (hi : s'.Owns i fd) : s.Owns i fd := by
  obtain hi | ⟨rfl, -⟩ := h.owns hi
  · exact hi
  · simp at hl

/-! ## The table -/

theorem State.getConn_set {conns : List (Option Nat)} {fd f : Nat} {c : Option Nat}
    (h : ((conns.set fd c)[f]?).join = some i) :
    (f = fd ∧ c = some i) ∨ (conns[f]?).join = some i := by
  obtain ⟨hf, hc⟩ | ⟨-, hold⟩ := of_getElem?_set (join_eq_some_iff.1 h)
  · exact .inl ⟨hf, hc.symm⟩
  · exact .inr (join_eq_some_iff.2 hold)

theorem State.getConn_deleteConn {f k : Nat} (h : (s.deleteConn i l).getConn f = some k) :
    s.getConn f = some k := by
  have hconns : (s.deleteConn i l).connsUnix = s.connsUnix.set l.fd none ∨
      (s.deleteConn i l).connsUnix = s.connsUnix := by
    simp only [State.deleteConn]
    split
    · exact .inl rfl
    · exact .inr rfl
  unfold State.getConn at h
  obtain hconns | hconns := hconns
  · rw [hconns] at h
    obtain ⟨_, hc⟩ | hold := State.getConn_set h
    · cases hc
    · exact hold
  · rwa [hconns] at h

theorem Step.getConn {f : Nat} (h : Step s e s') (hi : s'.getConn f = some i) :
    s.getConn f = some i ∨
    ((e = .setConn i ∨ e = .addDialer i) ∧ ∃ l, s.links[i]? = some l ∧ l.fd = f) := by
  have hset : ∀ {fd c}, (s.setConn fd c).getConn f = some i →
      (f = fd ∧ c = some i) ∨ s.getConn f = some i := State.getConn_set
  cases h with
  | setConn hl _ =>
    obtain ⟨rfl, hc⟩ | hold := hset hi
    · cases hc
      exact .inr ⟨.inl rfl, _, hl, rfl⟩
    · exact .inl hold
  | addDialer hl _ _ =>
    obtain ⟨rfl, hc⟩ | hold := hset hi
    · cases hc
      exact .inr ⟨.inr rfl, _, hl, rfl⟩
    · exact .inl hold
  | addReadFail _ _ | addReadWriteFail _ _ =>
    obtain ⟨_, hc⟩ | hold := hset hi
    · cases hc
    · exact .inl hold
  | deleteConn _ _ _ =>
    exact .inl (State.getConn_deleteConn hi)
  | handle _ _ _ heffect => cases heffect <;> exact .inl hi
  | asyncRead _ _ heffect => obtain rfl | rfl := heffect <;> exact .inl hi
  | _ => exact .inl hi

/-! ## Pollers -/

/-- An entry that a poller has not come to. -/
def State.Pending (s : State) (entry : Entry) : Prop :=
  ∃ (q : Nat) (p : Poller), s.pollers[q]? = some p ∧ entry ∈ p.batch

/-- An entry that a poller is at, or a job of `AsyncRead`. -/
def State.Working (s : State) (w : Work) : Prop :=
  (∃ (q : Nat) (p : Poller), s.pollers[q]? = some p ∧ p.current = some w) ∨ w ∈ s.tasks

theorem State.pollers_set {k : Nat} {p' m : Poller} (h : (s.setPoller q p').pollers[k]? = some m) :
    m = p' ∨ s.pollers[k]? = some m := by
  obtain ⟨-, rfl⟩ | ⟨-, hold⟩ := of_getElem?_set h
  · exact .inl rfl
  · exact .inr hold

theorem State.Pending.of_setPoller {p' : Poller} {entry : Entry}
    (h : (s.setPoller q p').Pending entry) : entry ∈ p'.batch ∨ s.Pending entry := by
  obtain ⟨k, m, hm, hmem⟩ := h
  obtain rfl | hold := State.pollers_set hm
  · exact .inl hmem
  · exact .inr ⟨k, m, hold, hmem⟩

theorem State.Working.of_setPoller {p' : Poller} (h : (s.setPoller q p').Working w) :
    p'.current = some w ∨ s.Working w := by
  obtain ⟨k, m, hm, hcurrent⟩ | hmem := h
  · obtain rfl | hold := State.pollers_set hm
    · exact .inl hcurrent
    · exact .inr (.inl ⟨k, m, hold, hcurrent⟩)
  · exact .inr (.inr hmem)

theorem Work.next_eq_some {w' : Work} (h : w'.next = some w) : w' = { w with part := w'.part } := by
  obtain ⟨entry, conn, owned, part⟩ := w'
  cases part <;> cases h <;> rfl

def State.Reported (s : State) (entry : Entry) : Prop :=
  ∃ l, s.links[entry.owner]? = some l ∧ l.fdOpen = true ∧ l.fd = entry.fd ∧
    l.mayReport entry.events = true

theorem State.reported_of_mem {reports : List (Nat × Events)} {batch : List Entry} {entry : Entry}
    (h : reports.mapM (s.entry q) = some batch) (hentry : entry ∈ batch) : s.Reported entry := by
  induction reports generalizing batch with
  | nil =>
    cases h
    cases hentry
  | cons r reports ih =>
    rw [mapM_cons] at h
    obtain ⟨first, hfirst, h⟩ := bind_eq_some_iff.1 h
    obtain ⟨rest, hrest, h⟩ := bind_eq_some_iff.1 h
    cases h
    rcases mem_cons.1 hentry with rfl | hmem
    · obtain ⟨l, hl, hfirst⟩ := bind_eq_some_iff.1 hfirst
      obtain ⟨hc, ⟨⟩⟩ := ite_none_right_eq_some.1 hfirst
      exact ⟨l, hl, hc.1, rfl, hc.2.2.2⟩
    · exact ih hrest hmem

theorem Step.pending {entry : Entry} (h : Step s e s') (hentry : s'.Pending entry) :
    s.Pending entry ∨ s.Reported entry := by
  cases h with
  | wait hp _ hbatch =>
    obtain hnew | hold := hentry.of_setPoller
    · exact .inr (State.reported_of_mem hbatch hnew)
    · exact .inl hold
  | skip hp _ hbatch _ =>
    obtain hmem | hold := hentry.of_setPoller
    · exact .inl ⟨_, _, hp, hbatch ▸ mem_cons_of_mem _ hmem⟩
    · exact .inl hold
  | next hp _ hbatch _ _ =>
    obtain hmem | hold := hentry.of_setPoller
    · exact .inl ⟨_, _, hp, hbatch ▸ mem_cons_of_mem _ hmem⟩
    · exact .inl hold
  | @handle q fails l p w _ hp _ _ heffect =>
    have hentry : (s.setPoller q { p with current := w.next }).Pending entry := by
      cases heffect <;> exact hentry
    obtain hmem | hold := hentry.of_setPoller
    · exact .inl ⟨q, p, hp, hmem⟩
    · exact .inl hold
  | asyncRead _ _ heffect => obtain rfl | rfl := heffect <;> exact .inl hentry
  | _ => exact .inl hentry

/-- When a poller has gone through the part for writing, a dial that was reported writable is no
longer waited for. -/
theorem Effect.onConnected (h : Effect s w l s') (hl : s.links[w.conn]? = some l)
    (hpart : w.part = .write) (hwrite : w.entry.events.write = true) :
    ∀ l', s'.links[w.conn]? = some l' → l'.onConnected = false := by
  intro l' hl'
  cases h with
  | none h =>
    rw [hl] at hl'
    cases hl'
    exact h hpart hwrite
  | task hread =>
    rw [hpart] at hread
    cases hread
  | report _ _ _ =>
    obtain rfl := State.put_self hl'
    rfl
  | close h =>
    obtain rfl := State.put_self hl'
    rw [Link.close_onConnected]
    exact (h hpart).2

theorem Step.working (h : Step s e s') (hw : s'.Working w) :
    s.Working w ∨
    (∃ w₀, s.Working w₀ ∧ w₀.next = some w ∧ (w₀.part = .write → w₀.entry.events.write = true →
      ∀ l, s'.links[w₀.conn]? = some l → l.onConnected = false)) ∨
    (s.Pending w.entry ∧ s.getConn w.entry.fd = some w.conn ∧ w.part = .write ∧
      ∃ l, s.links[w.conn]? = some l ∧ w.owned = l.fdOpen) := by
  cases h with
  | wait hp _ _ =>
    obtain hcur | hold := hw.of_setPoller
    · exact .inl (.inl ⟨_, _, hp, hcur⟩)
    · exact .inl hold
  | skip hp _ _ _ =>
    obtain hcur | hold := hw.of_setPoller
    · exact .inl (.inl ⟨_, _, hp, hcur⟩)
    · exact .inl hold
  | next hp _ hbatch hconn hl =>
    obtain hcur | hold := hw.of_setPoller
    · cases hcur
      exact .inr (.inr ⟨⟨_, _, hp, hbatch ▸ mem_cons_self⟩, hconn, rfl, _, hl, rfl⟩)
    · exact .inl hold
  | @handle q fails l p w' _ hp hcurrent hl heffect =>
    have hw' : s.Working w' := .inl ⟨q, p, hp, hcurrent⟩
    have hw : w = w' ∨ (s.setPoller q { p with current := w'.next }).Working w := by
      cases heffect with
      | task _ =>
        obtain hpoller | hmem := hw
        · exact .inr (.inl hpoller)
        · rcases mem_append.1 hmem with hmem | hmem
          · exact .inr (.inr hmem)
          · exact .inl (mem_singleton.1 hmem)
      | _ => exact .inr hw
    obtain rfl | hw := hw
    · exact .inl hw'
    · obtain hnext | hold := hw.of_setPoller
      · exact .inr (.inl ⟨w', hw', hnext, heffect.onConnected hl⟩)
      · exact .inl hold
  | asyncRead _ _ heffect =>
    obtain rfl | rfl := heffect
    all_goals
      obtain hpoller | hmem := hw
      · exact .inl (.inl hpoller)
      · exact .inl (.inr (mem_of_mem_eraseIdx hmem))
  | _ => exact .inl hw

theorem Step.task (h : Step s e s') (hw : w ∈ s'.tasks) : w ∈ s.tasks ∨ w.part = .read := by
  cases h with
  | handle _ _ _ heffect =>
    cases heffect with
    | task hpart =>
      rcases mem_append.1 hw with hold | hnew
      · exact .inl hold
      · rw [mem_singleton.1 hnew]
        exact .inr hpart
    | _ => exact .inl hw
  | asyncRead _ _ heffect =>
    obtain rfl | rfl := heffect <;> exact .inl (mem_of_mem_eraseIdx hw)
  | _ => exact .inl hw

theorem Step.hit {hit : Hit} (h : Step s e s') (hhit : hit ∈ s'.hits) :
    hit ∈ s.hits ∨ ∃ w, s.Working w ∧ hit = ⟨w.entry.owner, w.conn, w.owned⟩ := by
  cases h with
  | @handle q fails l p w' _ hp hcurrent _ heffect =>
    cases heffect with
    | close _ =>
      rcases mem_append.1 hhit with hold | hnew
      · exact .inl hold
      · exact .inr ⟨w', .inl ⟨q, p, hp, hcurrent⟩, mem_singleton.1 hnew⟩
    | _ => exact .inl hhit
  | asyncRead hw _ heffect =>
    obtain rfl | rfl := heffect
    · exact .inl hhit
    · rcases mem_append.1 hhit with hold | hnew
      · exact .inl hold
      · exact .inr ⟨_, .inr (mem_of_getElem? hw), mem_singleton.1 hnew⟩
  | _ => exact .inl hhit

/-! ## The first state -/

theorem start_getConn (conf : Conf) (maxOpenFiles nPoller f : Nat) :
    (start conf maxOpenFiles nPoller).getConn f = none := by
  simp only [State.getConn, start, getElem?_replicate]
  split <;> rfl

variable {maxOpenFiles : Nat}

theorem start_pollers {conf : Conf} {nPoller q : Nat} {p : Poller}
    (h : (start conf maxOpenFiles nPoller).pollers[q]? = some p) :
    p = { batch := [], current := none } :=
  eq_of_mem_replicate (mem_of_getElem? h)

theorem start_not_pending {conf : Conf} {nPoller : Nat} (entry : Entry) :
    ¬ (start conf maxOpenFiles nPoller).Pending entry := by
  rintro ⟨q, p, hp, hmem⟩
  rw [start_pollers hp] at hmem
  cases hmem

theorem start_not_working {conf : Conf} {nPoller : Nat} (w : Work) :
    ¬ (start conf maxOpenFiles nPoller).Working w := by
  rintro (⟨q, p, hp, hcurrent⟩ | hmem)
  · rw [start_pollers hp] at hcurrent
    cases hcurrent
  · cases hmem

end Registry

end Nbio.Net
