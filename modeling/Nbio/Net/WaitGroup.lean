import Nbio.Net.Table

/-!
# The wait group of the connections

`wgConn` starts at 1, which `Stop` takes away.  `onOpen` and a dial add one for a connection, and
the job that runs its `onClose` handler takes it away again.  A dial whose registration fails is
taken away twice: by the job of the close, and by `DialAsyncTimeout` itself.  In the runs in which
this does not happen, and in which a connection is added only once and not closed before its
`onOpen` has begun, the counter is the number of connections that are opened and not yet done, and
one more before `Stop`.
-/

namespace Nbio.Net

open Nbio.Go Nbio.Lib List
open Registry.State (forall_put forall_add)

namespace Registry

variable {s s' : State} {e : Event} {i jobs : Nat} {l l' : Link}

/-- The registration of a dial does not fail, only a link that is neither closed nor opened is
added, and a link is not closed between the setting of `p` and its `onOpen`. -/
def Regular (s : State) : Event → Prop
  | .addConn i => ∀ l ∈ s.links[i]?, l.closed = false ∧ l.opened = false
  | .addReadWrite _ ok => ok = true
  | .close i => ∀ l ∈ s.links[i]?, l.adding ≠ .opening ∧ l.adding ≠ .reading
  | _ => True

instance (s : State) (e : Event) : Decidable (Regular s e) := by
  apply Event.casesOn (motive := fun e => Decidable (Regular s e)) e <;> intros <;>
    unfold Regular <;> infer_instance

/-! ## The account of a link -/

def Closing.past : Closing → Bool
  | .before | .deleting => false
  | .closing | .finished => true

/-- The call that adds the link is past `onOpen` or `addDialer`, or there is none. -/
def Adding.Past (a : Adding) : Prop :=
  a ≠ .opening ∧ a ≠ .reading ∧ a ≠ .dialing ∧ a ≠ .dialFailed

/-- What was added and taken away for a link. -/
def Link.Counts (l : Link) (opened ended : Bool) : Prop :=
  l.opened = opened ∧ l.adds = opened.toNat ∧ l.ended = ended ∧ l.dones = ended.toNat

/-- The states of a link as the wait group sees it, with the number of its jobs for `onClose`. -/
inductive Link.Account (l : Link) (jobs : Nat) : Prop where
  /-- A UDP server, which is not counted. -/
  | server (htyp : l.typ = .udpServer) (hcounts : l.Counts false false) (hjobs : jobs = 0)
    (hadding : l.adding = .opening ∨ l.adding.Past)
  | fresh (htyp : l.typ ≠ .udpServer) (hcounts : l.Counts false false) (hjobs : jobs = 0)
    (hp : l.p = false) (htimer : l.wTimer = false) (hadding : l.adding = .idle)
  | opening (htyp : l.typ ≠ .udpServer) (hcounts : l.Counts false false) (hjobs : jobs = 0)
    (hp : l.p = true) (htimer : l.wTimer = false) (hopen : l.closed = false)
    (hadding : l.adding = .opening ∨ l.adding = .reading)
  /-- `addDialer` is next, or has refused the descriptor. -/
  | dialing (htyp : l.typ ≠ .udpServer) (hcounts : l.Counts true false) (hjobs : jobs = 0)
    (hp : l.p = false) (htimer : l.wTimer = false)
    (hadding : l.adding = .dialing ∧ l.closed = false ∨ l.adding = .dialFailed)
  /-- `DialAsyncTimeout` has returned the error. -/
  | failed (htyp : l.typ ≠ .udpServer) (hcounts : l.Counts true true) (hjobs : jobs = 0)
    (hp : l.p = false) (hadding : l.adding = .idle)
  | live (htyp : l.typ ≠ .udpServer) (hcounts : l.Counts true false)
    (hjobs : jobs = l.closing.past.toNat) (hp : l.p = true) (hadding : l.adding.Past)
  /-- `onClose` has run. -/
  | ended (htyp : l.typ ≠ .udpServer) (hcounts : l.Counts true true) (hjobs : jobs = 0)
    (hp : l.p = true) (hpast : l.closing.past = true) (hadding : l.adding.Past)

structure Link.Accounted (l : Link) (jobs : Nat) : Prop where
  closing : l.closed = false → l.closing = .before
  account : l.Account jobs

theorem Link.Accounted.closed_of (h : l.Accounted jobs) (hat : l.closing ≠ .before) :
    l.closed = true := by
  by_contra hopen
  exact hat (h.closing (by simpa using hopen))

def Link.Closable (l : Link) : Prop :=
  l.typ = .udpServer ∨ l.adding ≠ .opening ∧ l.adding ≠ .reading ∧ l.adding ≠ .dialing

theorem Link.Accounted.close (h : l.Accounted jobs) (hl : l.Closable) : l.close.Accounted jobs := by
  unfold Link.close
  split
  · exact h
  · next hopen =>
    have hbefore := h.closing (by simpa using hopen)
    refine ⟨fun h => absurd h.symm Bool.false_ne_true, ?_⟩
    cases h.account with
    | server htyp hcounts hjobs hadding => exact .server htyp hcounts hjobs hadding
    | fresh htyp hcounts hjobs hp _ hadding => exact .fresh htyp hcounts hjobs hp rfl hadding
    | opening htyp _ _ _ _ _ hadding =>
      rcases hl with hserver | ⟨hopening, hreading, -⟩
      · exact absurd hserver htyp
      · exact absurd hadding (not_or.2 ⟨hopening, hreading⟩)
    | dialing htyp hcounts hjobs hp _ hadding =>
      rcases hl with hserver | ⟨-, -, hdialing⟩
      · exact absurd hserver htyp
      · exact .dialing htyp hcounts hjobs hp rfl (.inr (hadding.resolve_left fun h => hdialing h.1))
    | failed htyp hcounts hjobs hp hadding => exact .failed htyp hcounts hjobs hp hadding
    | live htyp hcounts hjobs hp hadding =>
      rw [hbefore] at hjobs
      exact .live htyp hcounts hjobs hp hadding
    | ended _ _ _ _ hpast _ =>
      rw [hbefore] at hpast
      cases hpast

theorem Link.Account.move (h : l.Account jobs) (hidle : l.adding ≠ .idle) (hpast : l.adding.Past)
    (ha : l'.adding.Past) (htyp : l'.typ = l.typ) (hp : l'.p = l.p)
    (hclosing : l'.closing = l.closing) (hcounts : ∀ a b, l.Counts a b → l'.Counts a b) :
    l'.Account jobs := by
  cases h with
  | server ht hc hj _ => exact .server (htyp.trans ht) (hcounts _ _ hc) hj (.inr ha)
  | fresh _ _ _ _ _ hadding => exact absurd hadding hidle
  | opening _ _ _ _ _ _ hadding => exact absurd hadding (not_or.2 ⟨hpast.1, hpast.2.1⟩)
  | dialing _ _ _ _ _ hadding =>
    exact absurd hadding (not_or.2 ⟨fun h => hpast.2.2.1 h.1, hpast.2.2.2⟩)
  | failed _ _ _ _ hadding => exact absurd hadding hidle
  | live ht hc hj hp' _ =>
    exact .live (htyp ▸ ht) (hcounts _ _ hc) (hclosing ▸ hj) (hp.trans hp') ha
  | ended ht hc hj hp' hpast _ =>
    exact .ended (htyp ▸ ht) (hcounts _ _ hc) hj (hp.trans hp') (hclosing ▸ hpast) ha

theorem Link.Account.congr (h : l.Account jobs) (htyp : l'.typ = l.typ) (hp : l'.p = l.p)
    (hadding : l'.adding = l.adding) (hclosed : l'.closed = l.closed)
    (hclosing : l'.closing = l.closing) (htimer : l'.wTimer = true → l.wTimer = true)
    (hcounts : ∀ a b, l.Counts a b → l'.Counts a b) : l'.Account jobs := by
  have htimer' : l.wTimer = false → l'.wTimer = false := by
    intro hoff
    by_contra hon
    rw [htimer (by simpa using hon)] at hoff
    cases hoff
  cases h with
  | server ht hc hj ha => exact .server (htyp.trans ht) (hcounts _ _ hc) hj (hadding ▸ ha)
  | fresh ht hc hj hp' hm ha =>
    exact .fresh (htyp ▸ ht) (hcounts _ _ hc) hj (hp.trans hp') (htimer' hm) (hadding.trans ha)
  | opening ht hc hj hp' hm ho ha =>
    exact .opening (htyp ▸ ht) (hcounts _ _ hc) hj (hp.trans hp') (htimer' hm) (hclosed.trans ho)
      (hadding ▸ ha)
  | dialing ht hc hj hp' hm ha =>
    exact .dialing (htyp ▸ ht) (hcounts _ _ hc) hj (hp.trans hp') (htimer' hm)
      (by rwa [hadding, hclosed])
  | failed ht hc hj hp' ha =>
    exact .failed (htyp ▸ ht) (hcounts _ _ hc) hj (hp.trans hp') (hadding.trans ha)
  | live ht hc hj hp' ha =>
    exact .live (htyp ▸ ht) (hcounts _ _ hc) (hclosing ▸ hj) (hp.trans hp') (hadding ▸ ha)
  | ended ht hc hj hp' hpast ha =>
    exact .ended (htyp ▸ ht) (hcounts _ _ hc) hj (hp.trans hp') (hclosing ▸ hpast) (hadding ▸ ha)

def Link.Added (l : Link) : Prop := l.typ = .udpServer ∨ l.p = true ∧ l.opened = true

theorem Link.Added.follows (h : l.Added) (hl : l.Follows l') : l'.Added :=
  h.imp hl.typ.trans (And.imp hl.p hl.opened)

theorem Link.Added.closable (h : l.Added) (ha : l.Account jobs) : l.Closable := by
  rcases h with hserver | ⟨hadded, hopened⟩
  · exact .inl hserver
  · cases ha with
    | server htyp _ _ _ => exact .inl htyp
    | fresh _ _ _ hp _ _ | dialing _ _ _ hp _ _ | failed _ _ _ hp _ =>
      rw [hadded] at hp
      cases hp
    | opening _ hcounts _ _ _ _ _ =>
      rw [hcounts.1] at hopened
      cases hopened
    | live _ _ _ _ hadding => exact .inr ⟨hadding.1, hadding.2.1, hadding.2.2.1⟩
    | ended _ _ _ _ _ hadding => exact .inr ⟨hadding.1, hadding.2.1, hadding.2.2.1⟩

/-! ## The table and the pollers -/

def State.closeJobs (s : State) (i : Nat) : Nat := s.asyncList.count (.onClose i)

def Link.live (l : Link) : Nat := if l.opened && !l.ended then 1 else 0

def State.Counted (s : State) : Prop :=
  s.wgConn = (if s.stopped then 0 else 1) + total Link.live s.links

structure Accounts (s : State) : Prop where
  links : ∀ (i : Nat) (l : Link), s.links[i]? = some l → l.Accounted (s.closeJobs i)
  table : ∀ f i, s.getConn f = some i → ∃ l, s.links[i]? = some l ∧ l.Added
  working : ∀ w, s.Working w → ∃ l, s.links[w.conn]? = some l ∧ l.Added
  jobs : ∀ i, .onClose i ∈ s.asyncList → i < s.links.length
  count : s.Counted

theorem Accounts.closable {w : Work} (h : Accounts s) (hw : s.Working w)
    (hl : s.links[w.conn]? = some l) : l.Closable := by
  obtain ⟨m, hm, hadded⟩ := h.working w hw
  rw [hl] at hm
  cases hm
  exact hadded.closable (h.links _ _ hl).account

theorem Link.Account.added (h : l.Account jobs) (hat : l.adding = .opened) : l.Added := by
  cases h with
  | server htyp _ _ _ => exact .inl htyp
  | fresh _ _ _ _ _ hadding | failed _ _ _ _ hadding => simp [hat] at hadding
  | opening _ _ _ _ _ _ hadding | dialing _ _ _ _ _ hadding => simp [hat] at hadding
  | live _ hcounts _ hp _ => exact .inr ⟨hp, hcounts.1⟩
  | ended _ hcounts _ hp _ _ => exact .inr ⟨hp, hcounts.1⟩

theorem Link.Account.of_dialing (h : l.Account jobs)
    (hat : l.adding = .dialing ∨ l.adding = .dialFailed) :
    l.typ ≠ .udpServer ∧ l.Counts true false ∧ jobs = 0 ∧ l.p = false ∧ l.wTimer = false ∧
      (l.adding = .dialing → l.closed = false) := by
  cases h with
  | dialing htyp hcounts hjobs hp htimer hadding =>
    exact ⟨htyp, hcounts, hjobs, hp, htimer, fun hdialing => by simpa [hdialing] using hadding⟩
  | server _ _ _ hadding => rcases hat with hat | hat <;> simp [hat, Adding.Past] at hadding
  | fresh _ _ _ _ _ hadding | failed _ _ _ _ hadding => simp [hadding] at hat
  | opening _ _ _ _ _ _ hadding => rcases hat with hat | hat <;> simp [hat] at hadding
  | live _ _ _ _ hadding | ended _ _ _ _ _ hadding =>
    exact absurd hat (not_or.2 ⟨hadding.2.2.1, hadding.2.2.2⟩)

theorem Step.table_added (h : Accounts s) (hstep : Step s e s') :
    ∀ f i, s'.getConn f = some i → ∃ l, s'.links[i]? = some l ∧ l.Added := by
  intro f i hi
  have hkeep : (∃ l, s.links[i]? = some l ∧ l.Added) → ∃ l, s'.links[i]? = some l ∧ l.Added := by
    rintro ⟨l, hl, hadded⟩
    obtain ⟨l', hl', hfollows⟩ := hstep.follows hl
    exact ⟨l', hl', hadded.follows hfollows⟩
  obtain hold | ⟨rfl | rfl, -⟩ := hstep.getConn hi
  · exact hkeep (h.table f i hold)
  · cases hstep with
    | setConn hl hat => exact hkeep ⟨_, hl, (h.links _ _ hl).account.added hat⟩
  · cases hstep with
    | addDialerLimit _ _ _ => exact hkeep (h.table f i hi)
    | addDialer hl hat _ =>
      obtain ⟨l', hl', hfollows⟩ := (Step.addDialer hl hat ‹_›).follows hl
      obtain ⟨-, hcounts, -⟩ := (h.links _ _ hl).account.of_dialing (.inl hat)
      refine ⟨l', hl', .inr ⟨?_, hfollows.opened hcounts.1⟩⟩
      rw [State.put_self hl']

theorem Step.working_added (h : Accounts s) (hstep : Step s e s') :
    ∀ w, s'.Working w → ∃ l, s'.links[w.conn]? = some l ∧ l.Added := by
  intro w hw
  obtain ⟨l, hl, hadded⟩ : ∃ l, s.links[w.conn]? = some l ∧ l.Added := by
    obtain hold | ⟨w₀, hold, hnext, -⟩ | ⟨-, hconn, -⟩ := hstep.working hw
    · exact h.working w hold
    · rw [Work.next_eq_some hnext] at hold
      exact h.working { w with part := w₀.part } hold
    · exact h.table _ _ hconn
  obtain ⟨l', hl', hfollows⟩ := hstep.follows hl
  exact ⟨l', hl', hadded.follows hfollows⟩

theorem Step.closeJob (h : Accounts s) (hstep : Step s e s') :
    ∀ i, .onClose i ∈ s'.asyncList → i < s'.links.length := by
  intro i hi
  refine Nat.lt_of_lt_of_le ?_ hstep.length_le
  cases hstep with
  | dialed _ _ _ =>
    rcases mem_append.1 hi with hold | hnew
    · exact h.jobs i hold
    · cases mem_singleton.1 hnew
  | deleteConn hl _ _ =>
    simp only [State.deleteConn] at hi
    split at hi
    · rcases mem_append.1 hi with hold | hnew
      · exact h.jobs i hold
      · cases mem_singleton.1 hnew
        exact (List.getElem?_eq_some_iff.1 hl).1
    · exact h.jobs i hi
  | onClose hjobs _ | onConnected hjobs _ => exact h.jobs i (hjobs ▸ mem_cons_of_mem _ hi)
  | handle _ _ _ heffect => cases heffect <;> exact h.jobs i hi
  | asyncRead _ _ heffect => obtain rfl | rfl := heffect <;> exact h.jobs i hi
  | _ => exact h.jobs i hi

/-! ## The links -/

theorem Accounts.no_closeJob (h : Accounts s) : s.closeJobs s.links.length = 0 := by
  refine count_eq_zero.2 fun hmem => ?_
  exact absurd (h.jobs _ hmem) (Nat.lt_irrefl _)

theorem Link.Accounted.opens {a : Adding} (h : l.Accounted jobs) (htyp : l.typ ≠ .udpServer)
    (hat : l.adding = .opening ∨ l.adding = .reading) (ha : a.Past) :
    l.Counts false false ∧
      Link.Accounted { l with adding := a, adds := l.adds + 1, opened := true } jobs := by
  cases h.account with
  | server hserver _ _ _ => exact absurd hserver htyp
  | opening _ hcounts hjobs hp _ hopen _ =>
    refine ⟨hcounts, h.closing, .live htyp ⟨rfl, ?_, hcounts.2.2⟩ ?_ hp ha⟩
    · exact congrArg (· + 1) hcounts.2.1
    · rw [hjobs, h.closing hopen]
      rfl
  | fresh _ _ _ _ _ hadding | failed _ _ _ _ hadding => simp [hadding] at hat
  | dialing _ _ _ _ _ hadding =>
    rcases hadding with ⟨hadding, -⟩ | hadding <;> simp [hadding] at hat
  | live _ _ _ _ hadding | ended _ _ _ _ _ hadding =>
    exact absurd hat (not_or.2 ⟨hadding.1, hadding.2.1⟩)

section

variable (h : l.Account jobs)

include h

theorem Link.Account.typ_of_reading (hat : l.adding = .reading) :
    l.typ ≠ .udpServer := by
  cases h with
  | server _ _ _ hadding => simp [hat, Adding.Past] at hadding
  | fresh htyp _ _ _ _ _ | opening htyp _ _ _ _ _ _ | dialing htyp _ _ _ _ _ | failed htyp _ _ _ _
  | live htyp _ _ _ _ | ended htyp _ _ _ _ _ => exact htyp

theorem Link.Account.of_server (htyp : l.typ = .udpServer) :
    l.Counts false false ∧ jobs = 0 := by
  cases h with
  | server _ hcounts hjobs _ => exact ⟨hcounts, hjobs⟩
  | fresh hnot _ _ _ _ _ | opening hnot _ _ _ _ _ _ | dialing hnot _ _ _ _ _ | failed hnot _ _ _ _
  | live hnot _ _ _ _ | ended hnot _ _ _ _ _ => exact absurd htyp hnot

theorem Link.Account.add (hidle : l.adding = .idle) (hopen : l.closed = false)
    (hnew : l.opened = false) : Link.Account { l with p := true, adding := .opening } jobs := by
  cases h with
  | server htyp hcounts hjobs _ => exact .server htyp hcounts hjobs (.inl rfl)
  | fresh htyp hcounts hjobs _ htimer _ =>
    exact .opening htyp hcounts hjobs rfl htimer hopen (.inl rfl)
  | opening _ _ _ _ _ _ hadding => simp [hidle] at hadding
  | dialing _ hcounts _ _ _ _ | failed _ hcounts _ _ _ | live _ hcounts _ _ _
  | ended _ hcounts _ _ _ _ =>
    rw [hcounts.1] at hnew
    cases hnew

theorem Link.Account.refuse (hat : l.adding = .dialing) :
    Link.Account { l with adding := .dialFailed } jobs := by
  obtain ⟨htyp, hcounts, hjobs, hp, htimer, -⟩ := h.of_dialing (.inl hat)
  exact .dialing htyp hcounts hjobs hp htimer (.inr rfl)

theorem Link.Account.closable_of_timer (htimer : l.wTimer = true) :
    l.Closable := by
  cases h with
  | server htyp _ _ _ => exact .inl htyp
  | fresh _ _ _ _ hoff _ | opening _ _ _ _ hoff _ _ | dialing _ _ _ _ hoff _ =>
    rw [htimer] at hoff
    cases hoff
  | failed _ _ _ _ hadding => exact .inr (by simp [hadding])
  | live _ _ _ _ hadding | ended _ _ _ _ _ hadding =>
    exact .inr ⟨hadding.1, hadding.2.1, hadding.2.2.1⟩

end

theorem Link.Accounted.fail (h : l.Accounted jobs) (hat : l.adding = .dialFailed) :
    l.Counts true false ∧
      Link.Accounted { l with adding := .idle, dones := l.dones + 1, ended := true } jobs := by
  obtain ⟨htyp, hcounts, hjobs, hp, -⟩ := h.account.of_dialing (.inr hat)
  refine ⟨hcounts, h.closing, .failed htyp ⟨hcounts.1, hcounts.2.1, rfl, ?_⟩ hjobs hp rfl⟩
  exact congrArg (· + 1) hcounts.2.2.2

theorem Link.Accounted.finish (h : l.Accounted jobs) (hjobs : jobs ≠ 0) :
    jobs = 1 ∧ l.Counts true false ∧
      Link.Accounted { l with dones := l.dones + 1, ended := true } 0 := by
  cases h.account with
  | live htyp hcounts hone hp hadding =>
    have hpast : l.closing.past = true := by
      by_contra hnot
      rw [Bool.eq_false_iff.2 hnot] at hone
      exact hjobs hone
    refine ⟨by rw [hone, hpast]; rfl, hcounts, h.closing,
      .ended htyp ⟨hcounts.1, hcounts.2.1, rfl, ?_⟩ rfl hp hpast hadding⟩
    exact congrArg (· + 1) hcounts.2.2.2
  | server _ _ hzero _ | fresh _ _ hzero _ _ _ | opening _ _ hzero _ _ _ _ | dialing _ _ hzero _ _ _
  | failed _ _ hzero _ _ | ended _ _ hzero _ _ _ => exact absurd hzero hjobs

theorem Link.Accounted.delete (h : l.Accounted jobs) (hat : l.closing = .deleting) (hp : l.p = true)
    (htyp : l.typ ≠ .udpServer) :
    Link.Accounted { l with closing := .closing } (jobs + 1) := by
  have hclosed := h.closed_of (by rw [hat]; decide)
  refine ⟨fun hopen => ?_, ?_⟩
  · rw [hclosed] at hopen
    cases hopen
  · cases h.account with
    | server hserver _ _ _ => exact absurd hserver htyp
    | fresh _ _ _ hp' _ _ | dialing _ _ _ hp' _ _ | failed _ _ _ hp' _ =>
      rw [hp] at hp'
      cases hp'
    | opening _ _ _ _ _ hopen _ =>
      rw [hclosed] at hopen
      cases hopen
    | live _ hcounts hjobs _ hadding =>
      refine .live htyp hcounts ?_ hp hadding
      rw [hjobs, hat]
      rfl
    | ended _ _ _ _ hpast _ =>
      rw [hat] at hpast
      cases hpast

theorem Link.Accounted.proceed {c : Closing} (h : l.Accounted jobs) (hat : l.closing ≠ .before)
    (hpast : l.typ = .udpServer ∨ l.p = false ∨ l.closing.past = true ∧ c.past = true)
    {fdOpen : Bool} : Link.Accounted { l with closing := c, fdOpen := fdOpen } jobs := by
  have hclosed := h.closed_of hat
  refine ⟨fun hopen => ?_, ?_⟩
  · rw [hclosed] at hopen
    cases hopen
  · cases h.account with
    | server htyp hcounts hjobs hadding => exact .server htyp hcounts hjobs hadding
    | fresh htyp hcounts hjobs hp htimer hadding =>
      exact .fresh htyp hcounts hjobs hp htimer hadding
    | opening _ _ _ _ _ hopen _ =>
      rw [hclosed] at hopen
      cases hopen
    | dialing htyp hcounts hjobs hp htimer hadding =>
      exact .dialing htyp hcounts hjobs hp htimer hadding
    | failed htyp hcounts hjobs hp hadding => exact .failed htyp hcounts hjobs hp hadding
    | live htyp hcounts hjobs hp hadding =>
      rcases hpast with hserver | hp' | ⟨hold, hnew⟩
      · exact absurd hserver htyp
      · rw [hp] at hp'
        cases hp'
      · exact .live htyp hcounts (by rw [hjobs, hold, hnew]) hp hadding
    | ended htyp hcounts hjobs hp hold hadding =>
      rcases hpast with hserver | hp' | ⟨-, hnew⟩
      · exact absurd hserver htyp
      · rw [hp] at hp'
        cases hp'
      · exact .ended htyp hcounts hjobs hp hnew hadding

theorem count_onClose_append (k : Nat) (list : List Job) :
    (list ++ [Job.onClose i]).count (.onClose k) =
      list.count (.onClose k) + if k = i then 1 else 0 := by
  rw [count_append]
  split
  · next hk => rw [hk, count_singleton_self]
  · next hk =>
    have hnone : [Job.onClose i].count (.onClose k) = 0 := count_eq_zero.2 (by simpa using hk)
    rw [hnone]

theorem Accounts.deleteConn (h : Accounts s) (hl : s.links[i]? = some l)
    (hat : l.closing = .deleting) (hp : l.p = true) :
    ∀ (k : Nat) (m : Link),
      ((s.put i { l with closing := .closing }).deleteConn i l).links[k]? = some m →
      m.Accounted (((s.put i { l with closing := .closing }).deleteConn i l).closeJobs k) := by
  by_cases htyp : l.typ = .udpServer
  · have hsame : ((s.put i { l with closing := .closing }).deleteConn i l).asyncList =
        s.asyncList := by
      simp [State.deleteConn, htyp, State.put]
    simp only [State.closeJobs, hsame]
    exact forall_put h.links ((h.links _ _ hl).proceed (by rw [hat]; decide) (.inl htyp))
  · have hjobs : ((s.put i { l with closing := .closing }).deleteConn i l).asyncList =
        s.asyncList ++ [.onClose i] := by
      simp [State.deleteConn, htyp, State.put]
    simp only [State.closeJobs, hjobs]
    refine State.forall_put_ne (fun k m hk hm => ?_) ?_
    · rw [count_onClose_append, if_neg hk]
      exact h.links k m hm
    · rw [count_onClose_append, if_pos rfl]
      exact (h.links _ _ hl).delete hat hp htyp

theorem Accounts.onClose {rest : List Job} (h : Accounts s)
    (hjobs : s.asyncList = .onClose i :: rest)
    (hl : s.links[i]? = some l) : ∀ (k : Nat) (m : Link),
      (s.put i { l with dones := l.dones + 1, ended := true }).links[k]? = some m →
      m.Accounted (rest.count (.onClose k)) := by
  have hi : s.closeJobs i = rest.count (.onClose i) + 1 := by
    rw [State.closeJobs, hjobs, count_cons_self]
  obtain ⟨hone, -, hended⟩ := (h.links _ _ hl).finish (by omega)
  refine State.forall_put_ne (fun k m hk hm => ?_) ?_
  · have hother := h.links k m hm
    rwa [State.closeJobs, hjobs, count_cons_of_ne (by simpa using Ne.symm hk)] at hother
  · have hnone : rest.count (.onClose i) = 0 := by omega
    rw [hnone]
    exact hended

theorem Step.accounted (h : Accounts s) (he : Regular s e) (hstep : Step s e s') :
    ∀ (i : Nat) (l : Link), s'.links[i]? = some l → l.Accounted (s'.closeJobs i) := by
  cases hstep with
  | @accept fd typ _ _ =>
    refine forall_add h.links ⟨fun _ => rfl, ?_⟩
    by_cases hserver : typ = .udpServer
    · exact .server hserver ⟨rfl, rfl, rfl, rfl⟩ h.no_closeJob
        (.inr (by simp [Adding.Past, Link.new]))
    · exact .fresh hserver ⟨rfl, rfl, rfl, rfl⟩ h.no_closeJob rfl rfl rfl
  | @dial fd typ inprogress _ htyp =>
    refine forall_add h.links ⟨fun _ => rfl, ?_⟩
    refine .dialing ?_ ⟨rfl, rfl, rfl, rfl⟩ h.no_closeJob rfl rfl (.inl ⟨rfl, rfl⟩)
    rintro rfl
    cases htyp
  | readUDP hl htyp _ _ =>
    refine forall_add h.links ⟨fun _ => rfl, ?_⟩
    exact .opening (by simp [Link.child, Link.new]) ⟨rfl, rfl, rfl, rfl⟩ h.no_closeJob rfl rfl rfl
      (.inr rfl)
  | stop _ | wait _ _ _ | skip _ _ _ _ | next _ _ _ _ _ => exact h.links
  | handle hp hcurrent hl heffect =>
    cases heffect with
    | none _ | task _ => exact h.links
    | report _ _ _ =>
      refine forall_put h.links ⟨(h.links _ _ hl).closing, ?_⟩
      exact (h.links _ _ hl).account.congr rfl rfl rfl rfl rfl
        (fun hon => absurd hon Bool.false_ne_true) fun _ _ => id
    | close _ =>
      exact forall_put h.links
        ((h.links _ _ hl).close (h.closable (.inl ⟨_, _, hp, hcurrent⟩) hl))
  | asyncRead hw hl heffect =>
    obtain rfl | rfl := heffect
    · exact h.links
    · exact forall_put h.links
        ((h.links _ _ hl).close (h.closable (.inr (mem_of_getElem? hw)) hl))
  | addConnLimit hl hidle _ _ =>
    refine forall_put h.links ((h.links _ _ hl).close (.inr ?_))
    rw [hidle]
    decide
  | close hl hat =>
    obtain ⟨hopening, hreading⟩ := he _ hl
    exact forall_put h.links ((h.links _ _ hl).close (.inr ⟨hopening, hreading, hat⟩))
  | dialTimeout hl htimer =>
    exact forall_put h.links
      ((h.links _ _ hl).close ((h.links _ _ hl).account.closable_of_timer htimer))
  | addConn hl hidle _ _ =>
    obtain ⟨hopen, hnew⟩ := he _ hl
    exact forall_put h.links
      ⟨(h.links _ _ hl).closing, (h.links _ _ hl).account.add hidle hopen hnew⟩
  | onUDPListen hl hat htyp =>
    refine forall_put h.links ⟨(h.links _ _ hl).closing, ?_⟩
    obtain ⟨hcounts, hjobs⟩ := (h.links _ _ hl).account.of_server htyp
    exact .server htyp hcounts hjobs (.inr (by simp [Adding.Past]))
  | onOpen hl hat htyp =>
    exact forall_put h.links ((h.links _ _ hl).opens htyp (.inl hat) (by simp [Adding.Past])).2
  | onOpenUDP hl hat =>
    exact forall_put h.links ((h.links _ _ hl).opens
      ((h.links _ _ hl).account.typ_of_reading hat) (.inr hat) (by simp [Adding.Past])).2
  | setConn hl hat | addRead hl hat _ _ | addReadWrite hl hat _ _ | dialDeferred hl hat _ =>
    refine forall_put h.links ⟨(h.links _ _ hl).closing, ?_⟩
    exact (h.links _ _ hl).account.move (by simp [hat]) (by simp [hat, Adding.Past])
      (by simp [Adding.Past]) rfl rfl rfl fun _ _ => id
  | addReadFail hl hat =>
    refine forall_put h.links
      (Link.Accounted.close ⟨(h.links _ _ hl).closing, ?_⟩ (.inr (by simp)))
    exact (h.links _ _ hl).account.move (by simp [hat]) (by simp [hat, Adding.Past])
      (by simp [Adding.Past]) rfl rfl rfl fun _ _ => id
  | addDialerLimit hl hat _ =>
    refine forall_put h.links
      (Link.Accounted.close ⟨(h.links _ _ hl).closing, ?_⟩ (.inr (by simp)))
    exact (h.links _ _ hl).account.refuse hat
  | addDialer hl hat _ =>
    refine forall_put h.links ⟨(h.links _ _ hl).closing, ?_⟩
    obtain ⟨htyp, hcounts, hjobs, -, -, hopen⟩ := (h.links _ _ hl).account.of_dialing (.inl hat)
    refine .live htyp hcounts ?_ rfl (by simp [Adding.Past])
    rw [(h.links _ _ hl).closing (hopen hat)]
    exact hjobs
  | addReadWriteFail hl hat => cases he
  | dialFailed hl hat => exact forall_put h.links ((h.links _ _ hl).fail hat).2
  | @dialed i l timeout hl hat _ =>
    have hsame : ∀ k, (s.asyncList ++ [Job.onConnected i]).count (.onClose k) = s.closeJobs k := by
      simp [State.closeJobs]
    simp only [State.closeJobs, hsame]
    refine forall_put h.links ⟨(h.links _ _ hl).closing, ?_⟩
    exact (h.links _ _ hl).account.move (by simp [hat]) (by simp [hat, Adding.Past])
      (by simp [Adding.Past]) rfl rfl rfl fun _ _ => id
  | connected hl hat =>
    refine forall_put h.links ⟨(h.links _ _ hl).closing, ?_⟩
    exact (h.links _ _ hl).account.congr rfl rfl rfl rfl rfl id fun _ _ => id
  | deleteConn hl hat hp => exact h.deleteConn hl hat hp
  | deleteNone hl hat hp =>
    exact forall_put h.links ((h.links _ _ hl).proceed (by rw [hat]; decide) (.inr (.inl hp)))
  | closeFd hl hat =>
    exact forall_put h.links
      ((h.links _ _ hl).proceed (by rw [hat]; decide) (.inr (.inr ⟨by rw [hat]; rfl, rfl⟩)))
  | onClose hjobs hl => exact h.onClose hjobs hl
  | @onConnected i l rest hjobs hl =>
    have hsame : ∀ k, rest.count (.onClose k) = s.closeJobs k := by
      intro k
      rw [State.closeJobs, hjobs, count_cons_of_ne (by simp)]
    simp only [State.closeJobs, hsame]
    refine forall_put h.links ⟨(h.links _ _ hl).closing, ?_⟩
    exact (h.links _ _ hl).account.congr rfl rfl rfl rfl rfl
      (fun hon => absurd hon Bool.false_ne_true) fun _ _ => id

/-! ## The counter -/

theorem State.Counted.set (h : s.Counted) (hl : s.links[i]? = some l)
    (hlinks : s'.links = s.links.set i l') (hstopped : s'.stopped = s.stopped)
    (hwg : s'.wgConn + l.live = s.wgConn + l'.live) : s'.Counted := by
  have htotal := total_set Link.live hl l'
  unfold State.Counted at h ⊢
  rw [hlinks, hstopped]
  omega

theorem State.Counted.append (h : s.Counted) (hlinks : s'.links = s.links ++ [l])
    (hstopped : s'.stopped = s.stopped) (hwg : s'.wgConn = s.wgConn + l.live) : s'.Counted := by
  unfold State.Counted at h ⊢
  rw [hlinks, hstopped, total_append]
  omega

theorem Link.live_opened {a : Adding} (h : l.Counts false false) (n : Int) :
    n + 1 + (l.live : Int) =
      n + Link.live { l with adding := a, adds := l.adds + 1, opened := true } := by
  simp [Link.live, h.1, h.2.2.1]

theorem Link.live_ended (h : l.Counts true false) (hended : l'.ended = true) (n : Int) :
    n - 1 + (l.live : Int) = n + (l'.live : Int) := by
  have hbefore : l.live = 1 := by simp [Link.live, h.1, h.2.2.1]
  have hafter : l'.live = 0 := by simp [Link.live, hended]
  omega

theorem Link.live_close (l : Link) : l.close.live = l.live := by
  unfold Link.close
  split <;> rfl

theorem Step.counted (h : Accounts s) (hstep : Step s e s') : s'.Counted := by
  have hcount := h.count
  cases hstep with
  | accept _ _ | readUDP _ _ _ _ => exact hcount.append rfl rfl (Int.add_zero _).symm
  | dial _ _ => exact hcount.append rfl rfl rfl
  | stop hstopped =>
    have hbefore : s.wgConn = 1 + total Link.live s.links := by
      simpa [State.Counted, hstopped] using hcount
    have hafter : s.wgConn - 1 = 0 + total Link.live s.links := by omega
    exact hafter
  | wait _ _ _ | skip _ _ _ _ | next _ _ _ _ _ => exact hcount
  | handle _ _ hl heffect =>
    cases heffect with
    | none _ | task _ => exact hcount
    | report _ _ _ => exact hcount.set hl rfl rfl rfl
    | close _ => exact hcount.set hl rfl rfl (by rw [Link.live_close]; rfl)
  | asyncRead _ hl heffect =>
    obtain rfl | rfl := heffect
    · exact hcount
    · exact hcount.set hl rfl rfl (by rw [Link.live_close]; rfl)
  | addConnLimit hl _ _ _ | close hl _ | dialTimeout hl _ | addReadFail hl _ | addDialerLimit hl _ _
  | addReadWriteFail hl _ => exact hcount.set hl rfl rfl (by rw [Link.live_close]; rfl)
  | onOpen hl hat htyp =>
    obtain ⟨hcounts, -⟩ := (h.links _ _ hl).opens htyp (.inl hat) (a := .opened)
      (by simp [Adding.Past])
    refine hcount.set hl rfl rfl ?_
    exact Link.live_opened hcounts _
  | onOpenUDP hl hat =>
    obtain ⟨hcounts, -⟩ := (h.links _ _ hl).opens
      ((h.links _ _ hl).account.typ_of_reading hat) (.inr hat) (a := .idle)
      (by simp [Adding.Past])
    refine hcount.set hl rfl rfl ?_
    exact Link.live_opened hcounts _
  | dialFailed hl hat =>
    exact hcount.set hl rfl rfl (Link.live_ended ((h.links _ _ hl).fail hat).1 rfl _)
  | @onClose i l rest hjobs hl =>
    have hpos : s.closeJobs i ≠ 0 := by
      rw [State.closeJobs, hjobs, count_cons_self]
      exact Nat.succ_ne_zero _
    exact hcount.set hl rfl rfl (Link.live_ended ((h.links _ _ hl).finish hpos).2.1 rfl _)
  | onConnected _ hl => exact hcount.set hl rfl rfl rfl
  | addConn hl | onUDPListen hl | setConn hl | addRead hl | addDialer hl | addReadWrite hl
  | dialDeferred hl | dialed hl | connected hl | deleteConn hl | deleteNone hl | closeFd hl =>
    exact hcount.set hl rfl rfl rfl

/-! ## Runs -/

theorem Step.accounts (h : Accounts s) (he : Regular s e) (hstep : Step s e s') : Accounts s' where
  links := hstep.accounted h he
  table := hstep.table_added h
  working := hstep.working_added h
  jobs := hstep.closeJob h
  count := hstep.counted h

theorem start_accounts (conf : Conf) (maxOpenFiles nPoller : Nat) :
    Accounts (start conf maxOpenFiles nPoller) where
  links := by
    intro i l hl
    cases hl
  table := by
    intro f i hi
    rw [start_getConn] at hi
    cases hi
  working w hw := absurd hw (start_not_working w)
  jobs := by
    intro i hi
    cases hi
  count := rfl

/-- What is added for a link is taken away at most once, and has been when the link is closed and
its calls and jobs are over. -/
structure Link.Matched (l : Link) (jobs : Nat) : Prop where
  adds : l.adds ≤ 1
  dones : l.dones ≤ l.adds
  matched : l.closing = .finished → l.adding = .idle → jobs = 0 → l.dones = l.adds

theorem Link.Account.matched (h : l.Account jobs) : l.Matched jobs := by
  cases h with
  | server _ hcounts _ _ | fresh _ hcounts _ _ _ _ | opening _ hcounts _ _ _ _ _ =>
    obtain ⟨-, hadds, -, hdones⟩ := hcounts
    exact ⟨by simp [hadds], by simp [hdones], fun _ _ _ => by simp [hadds, hdones]⟩
  | failed _ hcounts _ _ _ | ended _ hcounts _ _ _ _ =>
    obtain ⟨-, hadds, -, hdones⟩ := hcounts
    exact ⟨by simp [hadds], by simp [hadds, hdones], fun _ _ _ => by simp [hadds, hdones]⟩
  | dialing _ hcounts _ _ _ hadding =>
    obtain ⟨-, hadds, -, hdones⟩ := hcounts
    refine ⟨by simp [hadds], by simp [hdones], fun _ hidle => ?_⟩
    simp [hidle] at hadding
  | live _ hcounts hjobs _ _ =>
    obtain ⟨-, hadds, -, hdones⟩ := hcounts
    refine ⟨by simp [hadds], by simp [hdones], fun hfinished _ hnone => ?_⟩
    rw [hfinished, hnone] at hjobs
    cases hjobs

/-- As long as registrations of dials do not fail, links are added once and before they are closed,
and not closed just before their `onOpen`: what is added to the counter for a link is taken away
exactly once, before `Stop` the counter is one more than the links that are opened and not yet done,
and it is never negative. -/
theorem wgConn_balanced {conf : Conf} {maxOpenFiles nPoller : Nat}
    (h : Reaches step Regular (start conf maxOpenFiles nPoller) s) :
    (∀ (i : Nat) (l : Link), s.links[i]? = some l → l.Matched (s.asyncList.count (.onClose i))) ∧
    (s.stopped = false → s.wgConn = 1 + total Link.live s.links) ∧
    (s.stopped = true → s.wgConn = total Link.live s.links) ∧ 0 ≤ s.wgConn := by
  have hinv : Accounts s := h.invariant (start_accounts _ _ _) fun _ _ _ ht he hstep =>
    (step_cases hstep).accounts ht he
  have hcount : s.wgConn = (if s.stopped then 0 else 1) + total Link.live s.links := hinv.count
  refine ⟨fun i l hl => (hinv.links i l hl).account.matched, fun hrunning => ?_,
    fun hstopped => ?_, ?_⟩
  · simpa [hrunning] using hcount
  · simpa [hstopped] using hcount
  · split at hcount <;> omega

/-- Two dials: the first fails at the limit of descriptors, the second is closed. -/
def dialsClosed : List Event :=
  [.dial 9 .tcp true, .addDialer 0, .deleteConn 0, .closeFd 0, .dialReturn 0 false,
    .dial 5 .tcp true, .addDialer 1, .addReadWrite 1 true, .dialReturn 1 false,
    .close 1, .deleteConn 1, .closeFd 1, .async]

theorem wgConn_balanced_dials_closed :
    ∃ s, Reaches step Regular (start synchronous 8 1) s ∧ s.links.length = 2 ∧
      (∀ (i : Nat) (l : Link), s.links[i]? = some l → l.Matched (s.asyncList.count (.onClose i))) ∧
      (s.stopped = false → s.wgConn = 1 + total Link.live s.links) ∧
      (s.stopped = true → s.wgConn = total Link.live s.links) ∧ 0 ≤ s.wgConn := by
  obtain ⟨s, hrun, hlinks⟩ :
      ∃ s,
        dialsClosed.foldlM (guarded step fun s e => decide (Regular s e)) (start synchronous 8 1) =
        some s ∧ s.links.length = 2 :=
    ends_of_any (by decide +kernel)
  have hreach : Reaches step Regular (start synchronous 8 1) s :=
    (Reaches.of_foldlM hrun).mono fun _ _ h => of_decide_eq_true h
  exact ⟨s, hreach, hlinks, wgConn_balanced hreach⟩

def dialsUnregistered : List Event :=
  [.dial 5 .tcp true, .addDialer 0, .addReadWrite 0 false, .deleteConn 0, .closeFd 0,
    .dialReturn 0 false, .dial 5 .tcp true, .addDialer 1, .addReadWrite 1 false, .deleteConn 1,
    .closeFd 1, .dialReturn 1 false, .async, .async]

/-- Each of them is taken away twice, and the counter falls below 0. -/
theorem wgConn_negative :
    ∃ s, dialsUnregistered.foldlM step (start synchronous 8 1) = some s ∧ s.wgConn = -1 ∧
      ∀ l ∈ s.links, l.adds = 1 ∧ l.dones = 2 :=
  ends_of_any (by decide +kernel)

end Registry

end Nbio.Net
