import Nbio.Net.Reuse

/-!
# The outcome of a dial

`DialAsyncTimeout` returns nil while the connect is in progress and leaves the callback in
`onConnected` for the poller to call.  The poller calls it at the first event for which the
descriptor is writable, always without an error, although a connect that has failed is reported so
too; and a connection that is closed first, by its timer or by `Close`, takes the callback with it.
In the runs in which neither happens the callback is called once.
-/

namespace Nbio.Net

open Nbio.Go Nbio.Lib

namespace Registry

variable {s s' : State} {e : Event} {i : Nat} {l l' : Link}

/-- The connect does not fail, and a link is not closed while its dial waits for the outcome. -/
def Orderly (s : State) (e : Event) : Prop :=
  EntersFresh s e ∧
  match e with
  | .connected _ ok => ok = true
  | .close i => ∀ l ∈ s.links[i]?, l.onConnected = false
  | .dialTimeout i => ∀ l ∈ s.links[i]?, l.onConnected = false
  | _ => True

instance (s : State) (e : Event) : Decidable (Orderly s e) := by
  apply Event.casesOn (motive := fun e => Decidable (Orderly s e)) e <;> intros <;>
    unfold Orderly <;> infer_instance

/-! ## Links -/

/-- `addDialer` has not returned, or it has and `DialAsyncTimeout` goes on. -/
def Adding.InDial (a : Adding) : Prop := a = .dialing ∨ a = .dialRegistering ∨ a = .dialed

instance (a : Adding) : Decidable a.InDial := by
  unfold Adding.InDial
  infer_instance

/-- The dial has failed and returns an error, or its callback has been called. -/
inductive Link.Settled (l : Link) : Prop where
  | failed (hreturned : l.returned = false) (hadding : ¬ l.adding.InDial)
  | told (hon : l.onConnected = false) (hreported : l.reported = [none])
    (hconnect : l.connect = .succeeded)

theorem Link.Settled.keep (h : l.Settled) (hreturned : l'.returned = l.returned)
    (hadding : ¬ l.adding.InDial → ¬ l'.adding.InDial) (hon : l'.onConnected = l.onConnected)
    (hreported : l'.reported = l.reported) (hconnect : l'.connect = l.connect) : l'.Settled := by
  cases h with
  | failed hr ha => exact .failed (hreturned.trans hr) (hadding ha)
  | told ho hr hn => exact .told (hon.trans ho) (hreported.trans hr) (hconnect.trans hn)

/-- How a dial whose connect was in progress stands. -/
inductive Link.Outcome (l : Link) : Prop where
  | settled (h : l.Settled)
  | awaited (hon : l.onConnected = true) (hreported : l.reported = []) (hopen : l.closed = false)
    (hadding : l.adding = .idle ∨ l.adding.InDial ∧ l.returned = false)

theorem Link.Outcome.settled_of (h : l.Outcome)
    (hnot : l.onConnected = false ∨ l.closed = true ∨ l.adding ≠ .idle ∧ ¬ l.adding.InDial) :
    l.Settled := by
  cases h with
  | settled h => exact h
  | awaited hon _ hopen hadding =>
    rcases hnot with hoff | hclosed | ⟨hidle, hin⟩
    · rw [hon] at hoff
      cases hoff
    · rw [hopen] at hclosed
      cases hclosed
    · rcases hadding with h | h
      · exact absurd h hidle
      · exact absurd h.1 hin

theorem Link.Outcome.congr (h : l.Outcome) (hreturned : l'.returned = l.returned)
    (hadding : l'.adding = l.adding) (hon : l'.onConnected = l.onConnected)
    (hreported : l'.reported = l.reported) (hclosed : l'.closed = l.closed)
    (hconnect : l'.connect = l.connect) : l'.Outcome := by
  cases h with
  | settled h =>
    exact .settled (h.keep hreturned (by rw [hadding]; exact id) hon hreported hconnect)
  | awaited ho hr hc ha =>
    exact .awaited (hon.trans ho) (hreported.trans hr) (hclosed.trans hc)
      (by rwa [hadding, hreturned])

structure Link.Dialled (l : Link) : Prop where
  closing : l.closing ≠ .before → l.closed = true
  fdOpen : l.deferred = true → l.fdOpen = false → l.closed = true
  connect : l.deferred = true → l.connect = .inprogress ∨ l.connect = .succeeded
  outcome : l.deferred = true → l.Outcome

theorem Link.Dialled.change (h : l.Dialled) (hclosing : l'.closing ≠ .before → l.closing ≠ .before)
    (hfd : l'.fdOpen = false → l.fdOpen = false ∨ l.closed = true) (hclosed : l'.closed = l.closed)
    (hconnect : l'.connect = l.connect ∨ l'.connect = .succeeded)
    (hdeferred : l'.deferred = l.deferred) (hout : l.deferred = true → l.Outcome → l'.Outcome) :
    l'.Dialled where
  closing h' := hclosed.trans (h.closing (hclosing h'))
  fdOpen hd hf := by
    rw [hclosed]
    rcases hfd hf with hf | hc
    · exact h.fdOpen (hdeferred.symm.trans hd) hf
    · exact hc
  connect hd := by
    rcases hconnect with hsame | hmade
    · rw [hsame]
      exact h.connect (hdeferred.symm.trans hd)
    · exact .inr hmade
  outcome hd := hout (hdeferred.symm.trans hd) (h.outcome (hdeferred.symm.trans hd))

theorem Link.Dialled.close (h : l.Dialled) (hsettled : l.deferred = true → l.Settled) :
    l.close.Dialled := by
  unfold Link.close
  split
  · exact h
  · next hopen =>
    exact
      { closing := fun _ => rfl
        fdOpen := fun _ _ => rfl
        connect := h.connect
        outcome := fun hd => .settled ((hsettled hd).keep rfl id rfl rfl rfl) }

/-! ## Pollers -/

/-- While a dial is waited for, an entry for it says that it is writable, and the connect is
made. -/
def Link.Announced (l : Link) (events : Events) : Prop :=
  l.deferred = true → l.onConnected = true → events.write = true ∧ l.connect = .succeeded

theorem Link.Announced.follows {events : Events} (h : l.Announced events) (hl : l.Follows l') :
    l'.Announced events := by
  intro hd hon
  obtain ⟨hwrite, hconnect⟩ := h (hl.deferred ▸ hd) (hl.onConnected hon)
  refine ⟨hwrite, ?_⟩
  rw [hl.connect (by rw [hconnect]; decide), hconnect]

/-- What is worked at for a link that owned its descriptor is at the part for writing as long as the
dial is waited for; another link has been closed. -/
def Link.WorkedAt (l : Link) (w : Work) : Prop :=
  if w.owned then
    l.Announced w.entry.events ∧ (l.deferred = true → l.onConnected = true → w.part = .write)
  else l.deferred = true → l.closed = true

variable {w : Work}

theorem Link.WorkedAt.follows (h : l.WorkedAt w) (hl : l.Follows l') : l'.WorkedAt w := by
  unfold Link.WorkedAt at h ⊢
  split at h
  · next howned =>
    rw [if_pos howned]
    exact ⟨h.1.follows hl, fun hd hon => h.2 (hl.deferred ▸ hd) (hl.onConnected hon)⟩
  · next howned =>
    rw [if_neg howned]
    exact fun hd => hl.closed (h (hl.deferred ▸ hd))

theorem Link.WorkedAt.pass {w' : Work} (h : l.WorkedAt w) (hnext : w.next = some w')
    (hpassed : w.part = .write → w.entry.events.write = true → l.onConnected = false) :
    l.WorkedAt w' := by
  rw [Work.next_eq_some hnext] at h hpassed
  unfold Link.WorkedAt at h ⊢
  split at h
  · next howned =>
    rw [if_pos howned]
    refine ⟨h.1, fun hd hon => ?_⟩
    rw [hpassed (h.2 hd hon) (h.1 hd hon).1] at hon
    cases hon
  · next howned =>
    rw [if_neg howned]
    exact h

structure Reporting (s : State) : Prop where
  directed : Directed s
  links : ∀ (i : Nat) (l : Link), s.links[i]? = some l → l.Dialled
  jobs : ∀ i, .onConnected i ∈ s.asyncList → ∃ l, s.links[i]? = some l ∧ l.deferred = false
  pending : ∀ entry, s.Pending entry →
    ∃ l, s.links[entry.owner]? = some l ∧ l.Announced entry.events
  working : ∀ w, s.Working w → ∃ l, s.links[w.conn]? = some l ∧ l.WorkedAt w
  tasks : ∀ w ∈ s.tasks, w.part = .read

theorem Link.WorkedAt.settled (h : l.WorkedAt w) (hl : l.Dialled)
    (hwrite : w.part = .write → l.onConnected = false) (hd : l.deferred = true) : l.Settled := by
  unfold Link.WorkedAt at h
  split at h
  · refine (hl.outcome hd).settled_of (.inl ?_)
    by_contra hon
    have hon : l.onConnected = true := by simpa using hon
    rw [hwrite (h.2 hd hon)] at hon
    cases hon
  · exact (hl.outcome hd).settled_of (.inr (.inl (h hd)))

theorem Link.WorkedAt.report (h : l.WorkedAt w) (hl : l.Dialled) (hon : l.onConnected = true) :
    l.report.Dialled := by
  refine hl.change id .inl rfl (.inl rfl) rfl fun hd hout => ?_
  cases hout with
  | settled hsettled =>
    cases hsettled with
    | failed hreturned hadding => exact .settled (.failed hreturned hadding)
    | told hoff _ _ =>
      rw [hon] at hoff
      cases hoff
  | awaited _ hreported hopen _ =>
    unfold Link.WorkedAt at h
    split at h
    · refine .settled (.told rfl ?_ (h.1 hd hon).2)
      simp [Link.report, hreported]
    · rw [h hd] at hopen
      cases hopen

theorem Link.Outcome.advance (h : l.Outcome) (hin : l.adding.InDial)
    (hon : l'.onConnected = l.onConnected) (hreported : l'.reported = l.reported)
    (hclosed : l'.closed = l.closed) (hconnect : l'.connect = l.connect)
    (hadding : l'.adding = .idle ∨ l'.adding.InDial ∧ l'.returned = l.returned) : l'.Outcome := by
  cases h with
  | settled h =>
    cases h with
    | failed _ hadding => exact absurd hin hadding
    | told ho hr hn =>
      exact .settled (.told (hon.trans ho) (hreported.trans hr) (hconnect.trans hn))
  | awaited ho hr hc ha =>
    refine .awaited (hon.trans ho) (hreported.trans hr) (hclosed.trans hc) ?_
    rcases hadding with hidle | ⟨hin', hreturned⟩
    · exact .inl hidle
    · rcases ha with hidle | ⟨-, hr⟩
      · rw [hidle] at hin
        exact absurd hin (by decide)
      · exact .inr ⟨hin', hreturned.trans hr⟩

theorem Link.Outcome.fail (h : l.Outcome) (hin : l.adding.InDial)
    (hreturned : l'.returned = l.returned) (hadding : ¬ l'.adding.InDial)
    (hon : l'.onConnected = l.onConnected) (hreported : l'.reported = l.reported)
    (hconnect : l'.connect = l.connect) : l'.Settled := by
  cases h with
  | settled h => exact h.keep hreturned (fun _ => hadding) hon hreported hconnect
  | awaited _ _ _ ha =>
    rcases ha with hidle | ⟨-, hr⟩
    · rw [hidle] at hin
      exact absurd hin (by decide)
    · exact .failed (hreturned.trans hr) hadding

theorem Link.Dialled.closeAt {a : Adding} (h : l.Dialled)
    (hsettled : l.deferred = true → Link.Settled { l with adding := a }) :
    (Link.close { l with adding := a }).Dialled :=
  Link.Dialled.close
    (h.change id .inl rfl (.inl rfl) rfl fun hd _ => .settled (hsettled hd)) hsettled

theorem Reporting.workedAt (h : Reporting s) (hw : s.Working w) (hl : s.links[w.conn]? = some l) :
    l.WorkedAt w := by
  obtain ⟨m, hm, hw⟩ := h.working w hw
  rw [hl] at hm
  cases hm
  exact hw

theorem Step.dialled (h : Reporting s) (he : Orderly s e) (hstep : Step s e s') :
    ∀ (i : Nat) (l : Link), s'.links[i]? = some l → l.Dialled := by
  cases hstep with
  | accept _ _ | readUDP _ _ _ _ =>
    exact State.forall_add h.links
      ⟨fun h => absurd rfl h, fun h => absurd h Bool.false_ne_true,
        fun h => absurd h Bool.false_ne_true, fun h => absurd h Bool.false_ne_true⟩
  | @dial fd typ inprogress _ _ =>
    refine State.forall_add h.links ⟨fun h => absurd rfl h,
      fun _ h => absurd h.symm Bool.false_ne_true, fun hd => ?_, fun hd => ?_⟩
    · obtain rfl : inprogress = true := hd
      exact .inl rfl
    · obtain rfl : inprogress = true := hd
      exact .awaited rfl rfl rfl (.inr ⟨.inl rfl, rfl⟩)
  | stop _ | wait _ _ _ | skip _ _ _ _ | next _ _ _ _ _ => exact h.links
  | handle hp hcurrent hl heffect =>
    have hw := h.workedAt (.inl ⟨_, _, hp, hcurrent⟩) hl
    have hdialled := h.links _ _ hl
    cases heffect with
    | none _ | task _ => exact h.links
    | report _ _ hon => exact State.forall_put h.links (hw.report hdialled hon)
    | close hoff =>
      exact State.forall_put h.links (hdialled.close (hw.settled hdialled fun hp => (hoff hp).2))
  | asyncRead hw hl heffect =>
    obtain rfl | rfl := heffect
    · exact h.links
    · have hmem := List.mem_of_getElem? hw
      have hread := h.tasks _ hmem
      refine State.forall_put h.links ((h.links _ _ hl).close
        ((h.workedAt (.inr hmem) hl).settled (h.links _ _ hl) fun hwrite => ?_))
      rw [hread] at hwrite
      cases hwrite
  | addConnLimit hl _ hon _ =>
    exact State.forall_put h.links ((h.links _ _ hl).close fun hd =>
      ((h.links _ _ hl).outcome hd).settled_of (.inl hon))
  | close hl _ | dialTimeout hl _ =>
    exact State.forall_put h.links ((h.links _ _ hl).close fun hd =>
      ((h.links _ _ hl).outcome hd).settled_of (.inl (he.2 _ hl)))
  | addConn hl _ hon _ =>
    refine State.forall_put h.links
      ((h.links _ _ hl).change id .inl rfl (.inl rfl) rfl fun _ hout => .settled ?_)
    exact (hout.settled_of (.inl hon)).keep rfl (fun _ => by simp [Adding.InDial]) rfl rfl rfl
  | onUDPListen hl hat _ | onOpen hl hat _ | onOpenUDP hl hat | setConn hl hat | addRead hl hat _ _
  | dialFailed hl hat =>
    refine State.forall_put h.links
      ((h.links _ _ hl).change id .inl rfl (.inl rfl) rfl fun _ hout => .settled ?_)
    refine (hout.settled_of (.inr (.inr ?_))).keep rfl (fun _ => by simp [Adding.InDial])
      rfl rfl rfl
    rw [hat]
    decide
  | addReadFail hl hat =>
    refine State.forall_put h.links ((h.links _ _ hl).closeAt fun hd => ?_)
    refine (((h.links _ _ hl).outcome hd).settled_of (.inr (.inr ?_))).keep rfl
      (fun _ => by simp [Adding.InDial]) rfl rfl rfl
    rw [hat]
    decide
  | addDialerLimit hl hat _ | addReadWriteFail hl hat =>
    refine State.forall_put h.links ((h.links _ _ hl).closeAt fun hd => ?_)
    refine ((h.links _ _ hl).outcome hd).fail ?_ rfl (by simp [Adding.InDial]) rfl rfl rfl
    rw [hat]
    decide
  | addDialer hl hat _ | addReadWrite hl hat _ _ =>
    refine State.forall_put h.links
      ((h.links _ _ hl).change id .inl rfl (.inl rfl) rfl fun _ hout => ?_)
    refine hout.advance ?_ rfl rfl rfl rfl (.inr ⟨by simp [Adding.InDial], rfl⟩)
    rw [hat]
    decide
  | dialDeferred hl hat _ =>
    refine State.forall_put h.links
      ((h.links _ _ hl).change id .inl rfl (.inl rfl) rfl fun _ hout => ?_)
    refine hout.advance ?_ rfl rfl rfl rfl (.inl rfl)
    rw [hat]
    decide
  | dialed hl hat hd =>
    refine State.forall_put h.links
      ((h.links _ _ hl).change id .inl rfl (.inl rfl) rfl fun hd' _ => ?_)
    rw [hd] at hd'
    cases hd'
  | connected hl hat =>
    obtain rfl := he.2
    refine State.forall_put h.links
      ((h.links _ _ hl).change id .inl rfl (.inr rfl) rfl fun _ hout => ?_)
    cases hout with
    | settled h =>
      cases h with
      | failed hreturned hadding => exact .settled (.failed hreturned hadding)
      | told hon hreported _ => exact .settled (.told hon hreported rfl)
    | awaited hon hreported hopen hadding => exact .awaited hon hreported hopen hadding
  | deleteConn hl hat _ | deleteNone hl hat _ =>
    refine State.forall_put h.links ((h.links _ _ hl).change (fun _ => ?_) .inl rfl (.inl rfl) rfl
      fun _ hout => hout.congr rfl rfl rfl rfl rfl rfl)
    rw [hat]
    decide
  | closeFd hl hat =>
    have hclosing := hat.trans_ne (show Closing.closing ≠ .before by decide)
    exact State.forall_put h.links ((h.links _ _ hl).change (fun _ => hclosing)
      (fun _ => .inr ((h.links _ _ hl).closing hclosing)) rfl (.inl rfl) rfl fun _ hout =>
        hout.congr rfl rfl rfl rfl rfl rfl)
  | onClose _ hl =>
    exact State.forall_put h.links ((h.links _ _ hl).change id .inl rfl (.inl rfl) rfl fun _ hout =>
      hout.congr rfl rfl rfl rfl rfl rfl)
  | onConnected hjobs hl =>
    obtain ⟨m, hm, hd⟩ := h.jobs _ (hjobs ▸ List.mem_cons_self)
    rw [hl] at hm
    cases hm
    refine State.forall_put h.links
      ((h.links _ _ hl).change id .inl rfl (.inl rfl) rfl fun hd' _ => ?_)
    rw [hd] at hd'
    cases hd'

/-! ## Runs -/

theorem Step.job (hstep : Step s e s') (h : .onConnected i ∈ s'.asyncList) :
    .onConnected i ∈ s.asyncList ∨ ∃ l, s.links[i]? = some l ∧ l.deferred = false := by
  cases hstep with
  | dialed hl _ hd =>
    rcases List.mem_append.1 h with hold | hnew
    · exact .inl hold
    · cases List.mem_singleton.1 hnew
      exact .inr ⟨_, hl, hd⟩
  | deleteConn _ _ _ =>
    simp only [State.deleteConn] at h
    split at h
    · rcases List.mem_append.1 h with hold | hnew
      · exact .inl hold
      · cases List.mem_singleton.1 hnew
    · exact .inl h
  | onClose hjobs _ | onConnected hjobs _ => exact .inl (hjobs ▸ List.mem_cons_of_mem _ h)
  | handle _ _ _ heffect => cases heffect <;> exact .inl h
  | asyncRead _ _ heffect => obtain rfl | rfl := heffect <;> exact .inl h
  | _ => exact .inl h

theorem Reporting.announced {entry : Entry} (h : Reporting s) (hentry : s.Reported entry) :
    ∃ l, s.links[entry.owner]? = some l ∧ l.Announced entry.events := by
  obtain ⟨l, hl, -, -, hmay⟩ := hentry
  refine ⟨l, hl, fun hd hon => ?_⟩
  rcases (h.links _ _ hl).connect hd with hconnect | hconnect
  · simp [Link.mayReport, hconnect] at hmay
  · simp only [Link.mayReport, hconnect, hon] at hmay
    exact ⟨by simpa [Events.write] using hmay, hconnect⟩

theorem Reporting.lookedUp (h : Reporting s) (hentry : s.Pending w.entry)
    (hconn : s.getConn w.entry.fd = some w.conn) (hpart : w.part = .write)
    (hl : s.links[w.conn]? = some l) (howned : w.owned = l.fdOpen) : l.WorkedAt w := by
  unfold Link.WorkedAt
  split
  · next hopen =>
    obtain ⟨m, hm, hfd⟩ := h.directed.table _ _ hconn
    rw [hl] at hm
    cases hm
    -- the owner of the descriptor is the link that the entry was reported for
    have howner := h.directed.pending w.entry w.conn hentry hconn ⟨l, hl, howned ▸ hopen, hfd⟩
    obtain ⟨m, hm, hannounced⟩ := h.pending w.entry hentry
    rw [← howner, hl] at hm
    cases hm
    exact ⟨hannounced, fun _ _ => hpart⟩
  · next hopen =>
    have hshut : l.fdOpen = false := by rw [← howned]; simpa using hopen
    exact fun hd => (h.links _ _ hl).fdOpen hd hshut

theorem Step.reporting (h : Reporting s) (he : Orderly s e) (hstep : Step s e s') :
    Reporting s' where
  directed := hstep.directed h.directed he.1
  links := hstep.dialled h he
  jobs := by
    intro i hi
    obtain ⟨l, hl, hd⟩ : ∃ l, s.links[i]? = some l ∧ l.deferred = false := by
      obtain hold | hnew := hstep.job hi
      · exact h.jobs i hold
      · exact hnew
    obtain ⟨l', hl', hfollows⟩ := hstep.follows hl
    exact ⟨l', hl', hfollows.deferred.trans hd⟩
  pending := by
    intro entry hentry
    obtain ⟨l, hl, hannounced⟩ : ∃ l, s.links[entry.owner]? = some l ∧
        l.Announced entry.events := by
      obtain hold | hnew := hstep.pending hentry
      · exact h.pending entry hold
      · exact h.announced hnew
    obtain ⟨l', hl', hfollows⟩ := hstep.follows hl
    exact ⟨l', hl', hannounced.follows hfollows⟩
  working := by
    intro w hw
    obtain hold | ⟨w₀, hold, hnext, hpassed⟩ | ⟨hentry, hconn, hpart, l, hl, howned⟩ :=
      hstep.working hw
    · obtain ⟨l, hl, hat⟩ := h.working w hold
      obtain ⟨l', hl', hfollows⟩ := hstep.follows hl
      exact ⟨l', hl', hat.follows hfollows⟩
    · obtain ⟨l, hl, hat⟩ := h.working w₀ hold
      obtain ⟨l', hl', hfollows⟩ := hstep.follows hl
      have hsame := Work.next_eq_some hnext
      have hconn : w₀.conn = w.conn := by rw [hsame]
      exact ⟨l', hconn ▸ hl',
        (hat.follows hfollows).pass hnext fun hp hwrite => hpassed hp hwrite l' hl'⟩
    · obtain ⟨l', hl', hfollows⟩ := hstep.follows hl
      exact ⟨l', hl', (h.lookedUp hentry hconn hpart hl howned).follows hfollows⟩
  tasks := by
    intro w hw
    obtain hold | hnew := hstep.task hw
    · exact h.tasks w hold
    · exact hnew

theorem start_reporting (conf : Conf) (maxOpenFiles nPoller : Nat) :
    Reporting (start conf maxOpenFiles nPoller) where
  directed := start_directed _ _ _
  links := by
    intro i l hl
    cases hl
  jobs := by
    intro i hi
    cases hi
  pending entry hentry := absurd hentry (start_not_pending entry)
  working w hw := absurd hw (start_not_working w)
  tasks := by
    intro w hw
    cases hw

/-- As long as connects succeed, no link is closed while its dial waits for the outcome, and links
are entered into the table with no stale entry about: a dial that was put off, has returned nil and
whose link is closed has called its callback once, without an error exactly if the connect
succeeded. -/
theorem dial_reports_once {conf : Conf} {maxOpenFiles nPoller : Nat}
    (h : Reaches step Orderly (start conf maxOpenFiles nPoller) s) :
    ∀ (i : Nat) (l : Link), s.links[i]? = some l → l.deferred = true → l.returned = true →
      l.closed = true → ∃ err, l.reported = [err] ∧ (err = none ↔ l.connect = .succeeded) := by
  have hinv : Reporting s := h.invariant (start_reporting _ _ _) fun _ _ _ ht he hstep =>
    (step_cases hstep).reporting ht he
  intro i l hl hd hreturned hclosed
  cases ((hinv.links i l hl).outcome hd).settled_of (.inr (.inl hclosed)) with
  | failed hnot _ =>
    rw [hreturned] at hnot
    cases hnot
  | told _ hreported hconnect => exact ⟨none, hreported, iff_of_true rfl hconnect⟩

def writable : Events := { hangup with epollout := true, epollhup := false }

def dialled : List Event :=
  [.dial 5 .tcp true, .addDialer 0, .addReadWrite 0 true, .dialReturn 0 true]

def polled (events : Events) : List Event :=
  [.wait 0 [(0, events)], .next 0, .handle 0 false, .handle 0 false, .handle 0 false]

def dialMade : List Event := dialled ++ .connected 0 true :: polled writable ++ closed 0

theorem dial_reports_once_made :
    ∃ s l, Reaches step Orderly (start synchronous 8 1) s ∧ s.links[0]? = some l ∧
      l.deferred = true ∧ l.returned = true ∧ l.closed = true ∧
      ∃ err, l.reported = [err] ∧ (err = none ↔ l.connect = .succeeded) := by
  obtain ⟨s, hrun, l, hl, hd, hreturned, hclosed⟩ :
      ∃ s, dialMade.foldlM (guarded step fun s e => decide (Orderly s e)) (start synchronous 8 1) =
        some s ∧ ∃ l ∈ s.links[0]?, l.deferred = true ∧ l.returned = true ∧ l.closed = true :=
    ends_of_any (by decide +kernel)
  have hreach : Reaches step Orderly (start synchronous 8 1) s :=
    (Reaches.of_foldlM hrun).mono fun _ _ h => of_decide_eq_true h
  exact ⟨s, l, hreach, hl, hd, hreturned, hclosed,
    dial_reports_once hreach 0 l hl hd hreturned hclosed⟩

def dialRefused : List Event :=
  dialled ++ .connected 0 false :: polled { writable with epollerr := true, epollhup := true }

def dialTimedOut : List Event := dialled ++ [.dialTimeout 0, .deleteConn 0, .closeFd 0, .async]

/-- A connect that has failed is reported to the callback as made, and a timeout is not reported. -/
theorem dial_misreported :
    (∃ s, dialRefused.foldlM step (start synchronous 8 1) = some s ∧
      ∃ l ∈ s.links[0]?, l.deferred = true ∧ l.returned = true ∧ l.closed = true ∧
        l.connect = .failed ∧ l.reported = [none]) ∧
    ∃ s, dialTimedOut.foldlM step (start synchronous 8 1) = some s ∧
      ∃ l ∈ s.links[0]?, l.deferred = true ∧ l.returned = true ∧ l.closed = true ∧
        l.ended = true ∧ l.reported = [] :=
  ⟨ends_of_any (by decide +kernel), ends_of_any (by decide +kernel)⟩

end Registry

end Nbio.Net
