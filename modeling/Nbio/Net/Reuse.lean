import Nbio.Net.Table

/-!
# Events and reused descriptors

A batch of events names descriptors, and the poller looks each of them up in the table only when it
comes to it.  By then the connection that the event was reported for may have been closed and its
number given to a new one, which the poller then finds and closes.  This does not happen as long as
no connection is entered into the table while a poller still has an entry for its descriptor that
was reported for an earlier one.
-/

namespace Nbio.Net

open Nbio.Go Nbio.Lib

namespace Registry

variable {s s' : State} {e : Event}

/-- No poller has an entry left that was reported for an earlier owner of the descriptor of link
`i`. -/
def State.NoStaleEntry (s : State) (i : Nat) : Prop :=
  ∀ l ∈ s.links[i]?, ∀ p ∈ s.pollers, ∀ entry ∈ p.batch, entry.fd = l.fd → entry.owner = i

instance (s : State) (i : Nat) : Decidable (s.NoStaleEntry i) := by
  unfold State.NoStaleEntry
  infer_instance

/-- Where a link is entered into the table, no entry for its descriptor is stale. -/
def EntersFresh (s : State) : Event → Prop
  | .setConn i => s.NoStaleEntry i
  | .addDialer i => s.NoStaleEntry i
  | _ => True

instance (s : State) (e : Event) : Decidable (EntersFresh s e) := by
  apply Event.casesOn (motive := fun e => Decidable (EntersFresh s e)) e <;> intros <;>
    unfold EntersFresh <;> infer_instance

/-- What holds of the table and the pollers while links are entered so. -/
structure Directed (s : State) : Prop where
  /-- A descriptor has one owner. -/
  owner : ∀ i j fd, s.Owns i fd → s.Owns j fd → i = j
  /-- The table has each link under its descriptor. -/
  table : ∀ f i, s.getConn f = some i → ∃ l, s.links[i]? = some l ∧ l.fd = f
  /-- If the owner of the descriptor of an entry is in the table, the entry was reported for it. -/
  pending : ∀ entry i, s.Pending entry → s.getConn entry.fd = some i → s.Owns i entry.fd →
    i = entry.owner
  working : ∀ w, s.Working w → w.owned = true → w.conn = w.entry.owner
  hits : ∀ hit ∈ s.hits, hit.owned = true → hit.target = hit.owner

theorem start_directed (conf : Conf) (maxOpenFiles nPoller : Nat) :
    Directed (start conf maxOpenFiles nPoller) where
  owner := by
    rintro i j fd ⟨l, hl, -⟩
    cases hl
  table := by
    intro f i hi
    rw [start_getConn] at hi
    cases hi
  pending := by
    intro entry i hentry
    exact absurd hentry (start_not_pending entry)
  working := by
    intro w hw
    exact absurd hw (start_not_working w)
  hits := by
    intro hit hmem
    cases hmem

theorem Step.directed (h : Directed s) (he : EntersFresh s e) (hstep : Step s e s') :
    Directed s' where
  owner := by
    intro i j fd hi hj
    obtain hi | ⟨rfl, hnone⟩ := hstep.owns hi
    · obtain hj | ⟨rfl, hnone⟩ := hstep.owns hj
      · exact h.owner i j fd hi hj
      · exact absurd hi (hnone i)
    · obtain hj | ⟨rfl, -⟩ := hstep.owns hj
      · exact absurd hj (hnone j)
      · rfl
  table := by
    intro f i hi
    obtain ⟨l, hl, hfd⟩ : ∃ l, s.links[i]? = some l ∧ l.fd = f := by
      obtain hold | ⟨-, hnew⟩ := hstep.getConn hi
      · exact h.table f i hold
      · exact hnew
    obtain ⟨l', hl', hfollows⟩ := hstep.follows hl
    exact ⟨l', hl', hfollows.fd.trans hfd⟩
  pending := by
    intro entry i hentry hi howns
    -- the entry was reported for the owner, or it is an old one and the link is
    have hreported : ∀ l, s.links[i]? = some l → s.Reported entry → i = entry.owner := by
      rintro l hl ⟨m, hm, hopen, hfd, -⟩
      exact h.owner i entry.owner entry.fd (hstep.owns_of_link hl howns) ⟨m, hm, hopen, hfd⟩
    obtain hold | ⟨hevent, l, hl, hfd⟩ := hstep.getConn hi
    · obtain ⟨l, hl, -⟩ := h.table _ i hold
      obtain hentry | hentry := hstep.pending hentry
      · exact h.pending entry i hentry hold (hstep.owns_of_link hl howns)
      · exact hreported l hl hentry
    · obtain ⟨q, p, hp, hmem⟩ | hentry := hstep.pending hentry
      · have hfresh : s.NoStaleEntry i := by
          obtain rfl | rfl := hevent <;> exact he
        exact (hfresh l hl p (List.mem_of_getElem? hp) entry hmem hfd.symm).symm
      · exact hreported l hl hentry
  working := by
    intro w hw howned
    obtain hold | ⟨w₀, hold, hnext, -⟩ | ⟨hentry, hconn, -, l, hl, hopen⟩ := hstep.working hw
    · exact h.working w hold howned
    · rw [Work.next_eq_some hnext] at hold
      exact h.working { w with part := w₀.part } hold howned
    · obtain ⟨m, hm, hfd⟩ := h.table _ _ hconn
      rw [hl] at hm
      cases hm
      exact h.pending w.entry w.conn hentry hconn ⟨l, hl, hopen.symm.trans howned, hfd⟩
  hits := by
    intro hit hmem howned
    obtain hold | ⟨w, hw, rfl⟩ := hstep.hit hmem
    · exact h.hits hit hold howned
    · exact h.working w hw howned

theorem directed_of_reaches {conf : Conf} {maxOpenFiles nPoller : Nat}
    (h : Reaches step EntersFresh (start conf maxOpenFiles nPoller) s) : Directed s :=
  h.invariant (start_directed _ _ _) fun _ _ _ ht he hstep => (step_cases hstep).directed ht he

/-- As long as no link is entered into the table while a poller has an entry for its descriptor that
was reported for an earlier one, a poller that closes the owner of a descriptor because of an event
closes the link that the event was reported for. -/
theorem closed_for_own_event {conf : Conf} {maxOpenFiles nPoller : Nat}
    (h : Reaches step EntersFresh (start conf maxOpenFiles nPoller) s) :
    ∀ hit ∈ s.hits, hit.owned = true → hit.target = hit.owner :=
  (directed_of_reaches h).hits

def hangup : Events :=
  { epollin := false, epollpri := false, epollout := false, epollerr := false, epollhup := true
    epollrdhup := false }

def accepted (i : Nat) : List Event :=
  [.accept 5 .tcp, .addConn i, .onOpen i, .setConn i, .addRead i true]

def closed (i : Nat) : List Event := [.close i, .deleteConn i, .closeFd i]

def hungUp : List Event :=
  accepted 0 ++ [.wait 0 [(0, hangup)], .next 0, .handle 0 false, .handle 0 false, .handle 0 false,
    .deleteConn 0, .closeFd 0] ++ accepted 1

theorem closed_for_own_event_hung_up :
    ∃ s, Reaches step EntersFresh (start synchronous 8 1) s ∧ s.hits = [⟨0, 0, true⟩] ∧
      s.getConn 5 = some 1 ∧ ∀ hit ∈ s.hits, hit.owned = true → hit.target = hit.owner := by
  obtain ⟨s, hrun, hhits, hconn⟩ :
      ∃ s,
        hungUp.foldlM (guarded step fun s e => decide (EntersFresh s e)) (start synchronous 8 1) =
        some s ∧ s.hits = [⟨0, 0, true⟩] ∧ s.getConn 5 = some 1 :=
    ends_of_any (by decide +kernel)
  have hreach : Reaches step EntersFresh (start synchronous 8 1) s :=
    (Reaches.of_foldlM hrun).mono fun _ _ h => of_decide_eq_true h
  exact ⟨s, hreach, hhits, hconn, closed_for_own_event hreach⟩

/-- The link is closed by another goroutine behind the report, and its number used again before the
poller comes to the entry. -/
def reused : List Event :=
  accepted 0 ++ [.wait 0 [(0, hangup)]] ++ closed 0 ++ accepted 1 ++
    [.next 0, .handle 0 false, .handle 0 false, .handle 0 false]

/-- The poller closes the new link for the hangup of the old one. -/
theorem closed_for_foreign_event :
    ∃ s, reused.foldlM step (start synchronous 8 1) = some s ∧ s.hits = [⟨0, 1, true⟩] ∧
      (s.links[1]?).any (·.closed) = true :=
  ends_of_any (by decide +kernel)

end Registry

end Nbio.Net
