import Nbio.Lmux.Mux

/-!
# The accounting of the listener mux

Every connection that a loop has accepted is sent to one of its two listeners.  The counter is the
number of connections that were dispatched to A and not yet decreased, and one for each loop that is
between its increment and its decision.
-/

namespace Nbio.Lmux

open Nbio.Lib List
open Listener (between claims loop_setChan chan_setChan chan_loop)

variable {s s' : State} {m m' : Mux} {e : Event} {c c' : Conn} {i k : Nat} {ln ln' : Listener}
  {side : Side}

/-! ## Connections -/

def Conn.held (c : Conn) : Bool :=
  match c.place with
  | .accepted | .decided _ => true
  | _ => false

def Conn.toA (c : Conn) : Bool :=
  match c.place with
  | .decided .a | .queued .a | .handled _ | .dropped => true
  | _ => false

/-- Whether a connection was dispatched to A and is not yet decreased. -/
def Conn.online (c : Conn) : Nat := if c.toA && c.decreases == 0 then 1 else 0

/-- What was done for a connection, by where it is. -/
def Conn.Sound (c : Conn) : Prop :=
  match c.place with
  | .accepted | .decided _ => c.sent = [] ∧ c.decreases = 0
  | .queued side => c.sent = [(c.listener, side)] ∧ c.decreases = 0
  | .handled todo => c.sent = [(c.listener, .a)] ∧ c.decreases + total Action.owes todo = 1
  | .dropped => c.sent = [(c.listener, .a)] ∧ c.decreases = 0
  | .nonBlocking => c.sent = [(c.listener, .b)] ∧ c.decreases = 0

def Conn.queuedIn (c : Conn) (k : Nat) (side : Side) : Nat :=
  if c.listener = k ∧ c.place = .queued side then 1 else 0

/-- The way of a connection: from its loop into the channel that the loop has decided for, and out
of it to the engine. -/
inductive Place.Leads : Place → Place → Prop where
  | stay (place : Place) : Leads place place
  | decide (side : Side) : Leads .accepted (.decided side)
  | send (side : Side) : Leads (.decided side) (.queued side)
  | drop : Leads (.queued .a) .dropped
  | add (todo : List Action) : Leads (.queued .a) (.handled todo)
  | addNonBlocking : Leads (.queued .b) .nonBlocking
  | act (todo todo' : List Action) : Leads (.handled todo) (.handled todo')

/-! ## The invariant -/

/-- The counter, and the connections and loops that have been counted within the limit. -/
structure Mux.Counts (m : Mux) : Prop where
  online : m.onlineA = total Conn.online m.conns + total Listener.between m.listeners
  bound : (total Conn.online m.conns : Int) + total (Listener.claims m.maxOnlineA) m.listeners ≤
    max 0 m.maxOnlineA

structure Inv (m : Mux) : Prop where
  sound : ∀ (i : Nat) (c : Conn), m.conns[i]? = some c → c.Sound
  /-- A loop has the connection that it has accepted. -/
  loops : ∀ (k : Nat) (ln : Listener), m.listeners[k]? = some ln →
    ∀ i place, ln.loop.holds = some (i, place) →
      ∃ c, m.conns[i]? = some c ∧ c.listener = k ∧ c.place = place
  /-- A connection that was not sent is at the loop of its listener. -/
  owner : ∀ (i : Nat) (c : Conn), m.conns[i]? = some c → c.held = true →
    ∃ ln, m.listeners[c.listener]? = some ln ∧ ln.loop.holds = some (i, c.place)
  chans : ∀ (k : Nat) (ln : Listener), m.listeners[k]? = some ln → ∀ side i,
    (ln.chan side).count (.conn i) = m.conns[i]?.elim 0 (·.queuedIn k side)
  known : ∀ (i : Nat) (c : Conn), m.conns[i]? = some c → c.listener < m.listeners.length
  counts : m.Counts

variable {place : Place}

theorem Inv.holds (h : Inv m) (hln : m.listeners[k]? = some ln)
    (hholds : ln.loop.holds = some (i, place)) (hc : m.conns[i]? = some c) :
    c.listener = k ∧ c.place = place := by
  obtain ⟨x, hx, hat⟩ := h.loops k ln hln i place hholds
  rw [hc] at hx
  cases hx
  exact hat

theorem Inv.queued {rest : List Item} (h : Inv m) (hln : m.listeners[k]? = some ln)
    (hchan : ln.chan side = .conn i :: rest) (hc : m.conns[i]? = some c) :
    c.listener = k ∧ c.place = .queued side := by
  have hcount := h.chans k ln hln side i
  have hpos : 0 < (ln.chan side).count (.conn i) := by
    rw [hchan]
    exact count_pos_iff.2 mem_cons_self
  rw [hcount, hc, Option.elim_some, Conn.queuedIn] at hpos
  by_contra hne
  rw [if_neg hne] at hpos
  exact Nat.lt_irrefl 0 hpos

theorem Inv.mem_chan (h : Inv m) (hc : m.conns[i]? = some c) (hplace : c.place = .queued side) :
    ∃ ln, m.listeners[c.listener]? = some ln ∧ .conn i ∈ ln.chan side := by
  have hln := List.getElem?_eq_getElem (h.known i c hc)
  refine ⟨_, hln, count_pos_iff.1 ?_⟩
  rw [h.chans _ _ hln, hc, Option.elim_some, Conn.queuedIn, if_pos ⟨rfl, hplace⟩]
  exact Nat.one_pos

theorem held_of_holds {loop : Loop} (hholds : loop.holds = some (i, place))
    (hplace : c.place = place) : c.held = true := by
  cases loop <;> cases hholds <;> simp [Conn.held, hplace]

theorem Conn.not_held_of_queued (h : c.place = .queued side) : c.held = false := by
  rw [Conn.held, h]

/-! ## Loops -/

theorem Inv.loop_of_ne (h : Inv m) (hln : m.listeners[k]? = some ln) {n : Nat}
    (hholds : ln.loop.holds = some (n, place)) (hc : m.conns[i]? = some c)
    (hne : c.listener ≠ k ∨ c.held = false) (c' : Conn) :
    ∃ x, (m.conns.set i c')[n]? = some x ∧ x.listener = k ∧ x.place = place := by
  obtain ⟨x, hx, hk, hplace⟩ := h.loops k ln hln n place hholds
  have hn : i ≠ n := by
    rintro rfl
    rw [hc] at hx
    cases hx
    rcases hne with hne | hne
    · exact hne hk
    · rw [held_of_holds hholds hplace] at hne
      cases hne
  exact ⟨x, by rw [getElem?_set_ne hn]; exact hx, hk, hplace⟩

theorem Step.loops (h : Inv m) (hstep : Step m m') : ∀ (k : Nat) (ln : Listener),
    m'.listeners[k]? = some ln → ∀ i place, ln.loop.holds = some (i, place) →
      ∃ c, m'.conns[i]? = some c ∧ c.listener = k ∧ c.place = place := by
  intro j x hx n place hholds
  cases hstep with
  | none => exact h.loops j x hx n place hholds
  | quiet hln hloop _ =>
    obtain ⟨rfl, rfl⟩ | ⟨-, hx⟩ := of_getElem?_set hx
    · rcases hloop with hsame | ⟨-, hnone⟩
      · exact h.loops j _ hln n place (hsame ▸ hholds)
      · rw [hnone] at hholds
        cases hholds
    · exact h.loops j x hx n place hholds
  | accept hln _ =>
    obtain ⟨rfl, rfl⟩ | ⟨-, hx⟩ := of_getElem?_set hx
    · cases hholds
      exact ⟨_, getElem?_concat_length, rfl, rfl⟩
    · obtain ⟨c, hc, hat⟩ := h.loops j x hx n place hholds
      exact ⟨c, getElem?_append_of_some hc _, hat⟩
  | increment hln hloop | refuse hln hloop _ =>
    obtain ⟨rfl, rfl⟩ | ⟨-, hx⟩ := of_getElem?_set hx
    · cases hholds
      exact h.loops j _ hln _ _ (by rw [hloop]; rfl)
    · exact h.loops j x hx n place hholds
  | toA hln hloop _ hc | undo hln hloop hc =>
    obtain ⟨hk, -⟩ := h.holds hln (by rw [hloop]; rfl) hc
    obtain ⟨rfl, rfl⟩ | ⟨hj, hx⟩ := of_getElem?_set hx
    · cases hholds
      exact ⟨_, getElem?_set_of_some hc _, hk, rfl⟩
    · exact h.loop_of_ne hx hholds hc (.inl fun heq => hj (heq.symm.trans hk)) _
  | send hln hloop hc =>
    obtain ⟨hk, -⟩ := h.holds hln (by rw [hloop]; rfl) hc
    obtain ⟨rfl, rfl⟩ | ⟨hj, hx⟩ := of_getElem?_set hx
    · cases hholds
    · exact h.loop_of_ne hx hholds hc (.inl fun heq => hj (heq.symm.trans hk)) _
  | receive hln hchan hc _ =>
    obtain ⟨-, hplace⟩ := h.queued hln hchan hc
    obtain ⟨rfl, rfl⟩ | ⟨-, hx⟩ := of_getElem?_set hx
    · rw [loop_setChan] at hholds
      exact h.loop_of_ne hln hholds hc (.inr (Conn.not_held_of_queued hplace)) _
    · exact h.loop_of_ne hx hholds hc (.inr (Conn.not_held_of_queued hplace)) _
  | act hc hplace _ | decrease hc hplace =>
    exact h.loop_of_ne hx hholds hc (.inr (by rw [Conn.held, hplace])) _

theorem Inv.owner_set (h : Inv m) (hln : m.listeners[k]? = some ln) (hc : m.conns[i]? = some c)
    (hheld : c.held = true)
    (hkeep : ∀ place, ln.loop.holds = some (i, place) → ln'.loop.holds = some (i, place)) :
    ∃ x, (m.listeners.set k ln')[c.listener]? = some x ∧ x.loop.holds = some (i, c.place) := by
  obtain ⟨x, hx, hholds⟩ := h.owner i c hc hheld
  by_cases hk : k = c.listener
  · subst hk
    rw [hln] at hx
    cases hx
    exact ⟨ln', getElem?_set_of_some hln _, hkeep _ hholds⟩
  · exact ⟨x, by rw [getElem?_set_ne hk]; exact hx, hholds⟩

theorem Step.owner (h : Inv m) (hstep : Step m m') : ∀ (i : Nat) (c : Conn),
    m'.conns[i]? = some c → c.held = true →
      ∃ ln, m'.listeners[c.listener]? = some ln ∧ ln.loop.holds = some (i, c.place) := by
  intro n x hx hheld
  cases hstep with
  | none => exact h.owner n x hx hheld
  | quiet hln hloop _ =>
    refine h.owner_set hln hx hheld fun place hholds => ?_
    rcases hloop with hsame | ⟨hnone, -⟩
    · rw [hsame]
      exact hholds
    · rw [hnone] at hholds
      cases hholds
  | accept hln hloop =>
    obtain ⟨rfl, rfl⟩ | hx := of_getElem?_append hx
    · exact ⟨_, getElem?_set_of_some hln _, rfl⟩
    · refine h.owner_set hln hx hheld fun place hholds => ?_
      rw [hloop] at hholds
      cases hholds
  | increment hln hloop | refuse hln hloop _ =>
    refine h.owner_set hln hx hheld fun place hholds => ?_
    rw [hloop] at hholds
    exact hholds
  | toA hln hloop _ hc | undo hln hloop hc =>
    obtain ⟨rfl, -⟩ := h.holds hln (by rw [hloop]; rfl) hc
    obtain ⟨rfl, rfl⟩ | ⟨hn, hx⟩ := of_getElem?_set hx
    · exact ⟨_, getElem?_set_of_some hln _, rfl⟩
    · refine h.owner_set hln hx hheld fun place hholds => ?_
      rw [hloop] at hholds
      cases hholds
      exact absurd rfl hn
  | send hln hloop hc =>
    obtain ⟨rfl, rfl⟩ | ⟨hn, hx⟩ := of_getElem?_set hx
    · cases hheld
    · refine h.owner_set hln hx hheld fun place hholds => ?_
      rw [hloop] at hholds
      cases hholds
      exact absurd rfl hn
  | receive hln hchan hc hnew =>
    obtain ⟨rfl, rfl⟩ | ⟨-, hx⟩ := of_getElem?_set hx
    · cases hnew <;> cases hheld
    · exact h.owner_set hln hx hheld fun place hholds => by rwa [loop_setChan]
  | act hc hplace _ | decrease hc hplace =>
    obtain ⟨rfl, rfl⟩ | ⟨-, hx⟩ := of_getElem?_set hx
    · cases hheld
    · exact h.owner n x hx hheld

/-! ## Channels -/

theorem chan_of_setLoop {loop : Loop} {j : Nat} {x : Listener} (hln : m.listeners[k]? = some ln)
    (hx : (m.listeners.set k { ln with loop := loop })[j]? = some x) :
    ∃ y, m.listeners[j]? = some y ∧ ∀ side, x.chan side = y.chan side := by
  obtain ⟨rfl, rfl⟩ | ⟨-, hx⟩ := of_getElem?_set hx
  · exact ⟨ln, hln, chan_loop ln loop⟩
  · exact ⟨x, hx, fun _ => rfl⟩

theorem Conn.queuedIn_of_place (hplace : ∀ side, c.place ≠ .queued side) (k : Nat) (side : Side) :
    c.queuedIn k side = 0 :=
  if_neg fun h => hplace side h.2

theorem Conn.queuedIn_of_listener (hne : c.listener ≠ k) (side : Side) : c.queuedIn k side = 0 :=
  if_neg fun h => hne h.1

theorem elim_set_queuedIn (hc : m.conns[i]? = some c)
    (hsame : c'.queuedIn k side = c.queuedIn k side) (n : Nat) :
    (m.conns.set i c')[n]?.elim 0 (·.queuedIn k side) =
      m.conns[n]?.elim 0 (·.queuedIn k side) := by
  by_cases hn : i = n
  · subst hn
    rw [getElem?_set_of_some hc, hc]
    exact hsame
  · rw [getElem?_set_ne hn]

/-- The loop of a connection or the engine moves it, and touches no other connection in the channels
of its listener. -/
theorem Inv.chans_set (h : Inv m) (hln : m.listeners[k]? = some ln) (hc : m.conns[i]? = some c)
    (hk : c.listener = k) (hk' : c'.listener = c.listener)
    (hself : ∀ side, (ln'.chan side).count (.conn i) = c'.queuedIn k side)
    (hothers : ∀ side n, i ≠ n →
      (ln'.chan side).count (.conn n) = (ln.chan side).count (.conn n)) :
    ∀ (j : Nat) (x : Listener), (m.listeners.set k ln')[j]? = some x → ∀ side n,
      (x.chan side).count (.conn n) = (m.conns.set i c')[n]?.elim 0 (·.queuedIn j side) := by
  intro j x hx side n
  obtain ⟨rfl, rfl⟩ | ⟨hj, hx⟩ := of_getElem?_set hx
  · by_cases hn : i = n
    · subst hn
      rw [getElem?_set_of_some hc]
      exact hself side
    · rw [getElem?_set_ne hn, hothers side n hn]
      exact h.chans j ln hln side n
  · have hne : c.listener ≠ j := fun heq => hj (heq.symm.trans hk)
    rw [h.chans j x hx side n, elim_set_queuedIn hc]
    rw [Conn.queuedIn_of_listener hne, Conn.queuedIn_of_listener (hk' ▸ hne)]

theorem Inv.not_mem_rest {rest : List Item} (h : Inv m) (hln : m.listeners[k]? = some ln)
    (hchan : ln.chan side = .conn i :: rest) (hc : m.conns[i]? = some c) (side' : Side) :
    ((ln.setChan side rest).chan side').count (.conn i) = 0 := by
  obtain ⟨-, hplace⟩ := h.queued hln hchan hc
  have hcount := h.chans k ln hln side' i
  rw [hc, Option.elim_some, Conn.queuedIn, hplace] at hcount
  rw [chan_setChan]
  split
  · next hside =>
    subst hside
    rw [hchan, count_cons_self] at hcount
    split at hcount <;> omega
  · next hside => rwa [if_neg fun hand => hside (Place.queued.inj hand.2).symm] at hcount

theorem count_setChan_tail {rest : List Item} (hchan : ln.chan side = .conn i :: rest)
    (side' : Side) {n : Nat} (hn : i ≠ n) :
    ((ln.setChan side rest).chan side').count (.conn n) = (ln.chan side').count (.conn n) := by
  rw [chan_setChan]
  split
  · next hside =>
    rw [hside, hchan, count_cons_of_ne fun heq => hn (Item.conn.inj heq)]
  · rfl

theorem count_setChan_append (ln : Listener) (side side' : Side) (i n : Nat) :
    ((ln.setChan side (ln.chan side ++ [.conn i])).chan side').count (.conn n) =
      (ln.chan side').count (.conn n) + if side' = side ∧ i = n then 1 else 0 := by
  rw [chan_setChan]
  by_cases hside : side' = side
  · simp [hside, count_singleton]
  · simp [hside]

theorem Step.chans (h : Inv m) (hstep : Step m m') : ∀ (k : Nat) (ln : Listener),
    m'.listeners[k]? = some ln → ∀ side i,
      (ln.chan side).count (.conn i) = m'.conns[i]?.elim 0 (·.queuedIn k side) := by
  intro j x hx side n
  cases hstep with
  | none => exact h.chans j x hx side n
  | quiet hln _ hchan =>
    obtain ⟨rfl, rfl⟩ | ⟨-, hx⟩ := of_getElem?_set hx
    · exact (hchan side n).trans (h.chans j _ hln side n)
    · exact h.chans j x hx side n
  | accept hln _ =>
    obtain ⟨y, hy, hchan⟩ := chan_of_setLoop hln hx
    rw [hchan, h.chans j y hy side n]
    rcases Nat.lt_trichotomy n m.conns.length with hn | rfl | hn
    · rw [getElem?_append_left hn]
    · rw [getElem?_concat_length, getElem?_eq_none (Nat.le_refl _)]
      exact (Conn.queuedIn_of_place (by simp) _ _).symm
    · rw [getElem?_eq_none (Nat.le_of_lt hn), getElem?_eq_none (by simp; omega)]
  | increment hln _ | refuse hln _ _ =>
    obtain ⟨y, hy, hchan⟩ := chan_of_setLoop hln hx
    rw [hchan, h.chans j y hy side n]
  | @toA k i _ _ c hln hloop _ hc | @undo k i _ c hln hloop hc =>
    obtain ⟨-, hplace⟩ := h.holds hln (by rw [hloop]; rfl) hc
    obtain ⟨y, hy, hchan⟩ := chan_of_setLoop hln hx
    have hzero : c.queuedIn j side = 0 := Conn.queuedIn_of_place (by simp [hplace]) _ _
    rw [hchan, h.chans j y hy side n, elim_set_queuedIn hc]
    rw [hzero]
    exact Conn.queuedIn_of_place (by simp) _ _
  | @send k i dst ln c hln hloop hc =>
    obtain ⟨hk, hplace⟩ := h.holds hln (by rw [hloop]; rfl) hc
    have hzero := Conn.queuedIn_of_place (c := c) (by simp [hplace]) k
    refine h.chans_set hln hc hk (by rfl) (fun side => ?_) (fun side n hn => ?_) j x hx side n
    · rw [chan_loop, count_setChan_append, h.chans k ln hln, hc, Option.elim_some, hzero]
      simp [Conn.queuedIn, hk, eq_comm]
    · rw [chan_loop, count_setChan_append]
      simp [hn]
  | receive hln hchan hc hnew =>
    obtain ⟨hk, -⟩ := h.queued hln hchan hc
    refine h.chans_set hln hc hk (by rfl) (fun side => ?_)
      (fun side n hn => count_setChan_tail hchan side hn) j x hx side n
    rw [h.not_mem_rest hln hchan hc, Conn.queuedIn_of_place]
    cases hnew <;> simp
  | @act i _ _ c hc hplace _ | @decrease i _ c hc hplace =>
    have hzero : c.queuedIn j side = 0 := Conn.queuedIn_of_place (by simp [hplace]) _ _
    rw [h.chans j x hx side n, elim_set_queuedIn hc]
    rw [hzero]
    exact Conn.queuedIn_of_place (by simp) _ _

/-! ## Connections -/

theorem Inv.sound_set (h : Inv m) (hc' : c'.Sound) :
    ∀ (j : Nat) (x : Conn), (m.conns.set i c')[j]? = some x → x.Sound := by
  intro j x hx
  obtain ⟨-, rfl⟩ | ⟨-, hx⟩ := of_getElem?_set hx
  · exact hc'
  · exact h.sound j x hx

theorem Step.sound (h : Inv m) (hstep : Step m m') :
    ∀ (i : Nat) (c : Conn), m'.conns[i]? = some c → c.Sound := by
  cases hstep with
  | none | quiet _ _ _ | increment _ _ | refuse _ _ _ => exact h.sound
  | accept _ _ =>
    intro j x hx
    obtain ⟨-, rfl⟩ | hx := of_getElem?_append hx
    · exact ⟨rfl, rfl⟩
    · exact h.sound j x hx
  | toA hln hloop _ hc | undo hln hloop hc =>
    obtain ⟨-, hplace⟩ := h.holds hln (by rw [hloop]; rfl) hc
    have hsound := h.sound _ _ hc
    rw [Conn.Sound, hplace] at hsound
    exact h.sound_set hsound
  | send hln hloop hc =>
    obtain ⟨hk, hplace⟩ := h.holds hln (by rw [hloop]; rfl) hc
    have hsound := h.sound _ _ hc
    rw [Conn.Sound, hplace] at hsound
    refine h.sound_set ⟨?_, hsound.2⟩
    rw [hsound.1, hk]
    rfl
  | receive hln hchan hc hnew =>
    obtain ⟨-, hplace⟩ := h.queued hln hchan hc
    have hsound := h.sound _ _ hc
    rw [Conn.Sound, hplace] at hsound
    cases hnew with
    | dropped | nonBlocking => exact h.sound_set hsound
    | handled todo howes =>
      refine h.sound_set ⟨hsound.1, ?_⟩
      rw [hsound.2, howes]
  | act hc hplace howes =>
    have hsound := h.sound _ _ hc
    rw [Conn.Sound, hplace] at hsound
    refine h.sound_set ⟨hsound.1, ?_⟩
    rw [howes]
    exact hsound.2
  | decrease hc hplace =>
    have hsound := h.sound _ _ hc
    rw [Conn.Sound, hplace] at hsound
    refine h.sound_set ⟨hsound.1, ?_⟩
    have hone := hsound.2
    simp only [total, map_cons, sum_cons, Action.owes] at hone ⊢
    omega

/-! ## The counter -/

theorem Listener.claims_le_between (maxOnlineA : Int) (ln : Listener) :
    ln.claims maxOnlineA ≤ ln.between := by
  unfold claims between
  cases ln.loop with
  | counted i online =>
    dsimp only
    split <;> decide
  | _ => exact Nat.zero_le _

theorem Listener.between_le_one (ln : Listener) : ln.between ≤ 1 := by
  unfold between
  split <;> decide

theorem Listener.between_of_holds (h : ln.loop.holds = none) : ln.between = 0 := by
  unfold between
  cases hloop : ln.loop with
  | counted i online | refused i =>
    rw [hloop] at h
    cases h
  | _ => rfl

theorem counts_of_quiet (maxOnlineA : Int)
    (h : ln'.loop = ln.loop ∨ ln.loop.holds = none ∧ ln'.loop.holds = none) :
    ln'.between = ln.between ∧ ln'.claims maxOnlineA = ln.claims maxOnlineA := by
  rcases h with h | ⟨h, h'⟩
  · simp only [between, claims, h, and_self]
  · have hzero := Listener.between_of_holds h
    have hzero' := Listener.between_of_holds h'
    have hle := ln.claims_le_between maxOnlineA
    have hle' := ln'.claims_le_between maxOnlineA
    omega

theorem total_online_set (hc : m.conns[i]? = some c) (htoA : c'.toA = c.toA)
    (hdecreases : c'.decreases = c.decreases) :
    total Conn.online (m.conns.set i c') = total Conn.online m.conns := by
  have hset := total_set Conn.online hc c'
  have hsame : c'.online = c.online := by rw [Conn.online, Conn.online, htoA, hdecreases]
  omega

theorem Conn.Sound.online_decided (h : c.Sound) (hplace : c.place = .accepted) :
    Conn.online { c with place := .decided .a } = 1 := by
  rw [Conn.Sound, hplace] at h
  simp [Conn.online, Conn.toA, h.2]

theorem Conn.Sound.online_handled {todo : List Action} (h : c.Sound)
    (hplace : c.place = .handled (.decrease :: todo)) : c.online = 1 := by
  rw [Conn.Sound, hplace] at h
  have hzero : c.decreases = 0 := by
    have hone := h.2
    simp only [total, map_cons, sum_cons, Action.owes] at hone
    omega
  simp [Conn.online, Conn.toA, hplace, hzero]

/-- A loop goes on, and with it the connections and the counter.  The loops that have been counted
within the limit are in the counter, so that there is room for one more if the counter is within
it. -/
theorem Mux.Counts.move {conns : List Conn} {n : Int} (h : m.Counts)
    (hln : m.listeners[k]? = some ln)
    (hcount : n + total Conn.online m.conns + ln.between =
      m.onlineA + total Conn.online conns + ln'.between)
    (hclaim : n ≤ m.maxOnlineA ∨ total Conn.online conns + ln'.claims m.maxOnlineA ≤
      total Conn.online m.conns + ln.claims m.maxOnlineA) :
    Mux.Counts { m with listeners := m.listeners.set k ln', conns := conns, onlineA := n } := by
  have hbetweens := total_set between hln ln'
  have hclaimed := total_set (claims m.maxOnlineA) hln ln'
  have hle : total (claims m.maxOnlineA) (m.listeners.set k ln') ≤
      total between (m.listeners.set k ln') :=
    total_le_total fun ln _ => ln.claims_le_between m.maxOnlineA
  have honline := h.online
  have hbound := h.bound
  constructor
  · dsimp only
    omega
  · dsimp only
    omega

theorem Mux.Counts.keep {conns : List Conn} (h : m.Counts) (hln : m.listeners[k]? = some ln)
    (hbetween : ln'.between = ln.between)
    (hclaims : ln'.claims m.maxOnlineA = ln.claims m.maxOnlineA)
    (honline : total Conn.online conns = total Conn.online m.conns) :
    Mux.Counts { m with listeners := m.listeners.set k ln', conns := conns } :=
  h.move hln (by omega) (.inr (by omega))

theorem Mux.Counts.decrease (h : m.Counts) (hc : m.conns[i]? = some c) (hbefore : c.online = 1)
    (hafter : c'.online = 0) :
    Mux.Counts { m with conns := m.conns.set i c', onlineA := m.onlineA - 1 } := by
  have hset := total_set Conn.online hc c'
  have hcount := h.online
  have hbound := h.bound
  constructor
  · dsimp only
    omega
  · dsimp only
    omega

theorem Step.counts (h : Inv m) (hstep : Step m m') : m'.Counts := by
  cases hstep with
  | none => exact h.counts
  | quiet hln hloop _ =>
    obtain ⟨hbetween, hclaims⟩ := counts_of_quiet m.maxOnlineA hloop
    exact h.counts.keep hln hbetween hclaims rfl
  | accept hln hloop =>
    refine h.counts.keep hln ?_ ?_ ?_
    · simp only [between, hloop]
    · simp only [claims, hloop]
    · simp [Conn.online, Conn.toA]
  | increment hln hloop =>
    refine h.counts.move hln ?_ ?_
    · simp only [between, hloop]
      omega
    · simp only [claims, hloop]
      split <;> omega
  | @toA k i online ln c hln hloop hle hc =>
    obtain ⟨-, hplace⟩ := h.holds hln (by rw [hloop]; rfl) hc
    have hset := total_set Conn.online hc { c with place := .decided .a }
    rw [(h.sound _ _ hc).online_decided hplace] at hset
    have hbefore : c.online = 0 := by simp [Conn.online, Conn.toA, hplace]
    refine h.counts.move hln ?_ (.inr ?_)
    · simp only [between, hloop]
      omega
    · simp only [claims, hloop, if_pos hle]
      omega
  | refuse hln hloop hlt =>
    refine h.counts.keep hln ?_ ?_ rfl
    · simp only [between, hloop]
    · simp only [claims, hloop, Int.not_le.2 hlt, if_false]
  | @undo k i ln c hln hloop hc =>
    obtain ⟨-, hplace⟩ := h.holds hln (by rw [hloop]; rfl) hc
    have hset : total Conn.online (m.conns.set i { c with place := .decided .b }) = _ :=
      total_online_set hc (by simp [Conn.toA, hplace]) rfl
    refine h.counts.move hln ?_ (.inr ?_)
    · simp only [between, hloop, hset]
      omega
    · simp only [claims, hloop, hset]
      omega
  | @send k i side ln c hln hloop hc =>
    obtain ⟨-, hplace⟩ := h.holds hln (by rw [hloop]; rfl) hc
    refine h.counts.keep hln ?_ ?_ (total_online_set hc ?_ rfl)
    · simp only [between, hloop]
    · simp only [claims, hloop]
    · cases side <;> simp [Conn.toA, hplace]
  | receive hln hchan hc hnew =>
    obtain ⟨-, hplace⟩ := h.queued hln hchan hc
    refine h.counts.keep hln ?_ ?_ (total_online_set hc ?_ rfl)
    · rw [between, loop_setChan, between]
    · rw [claims, loop_setChan, claims]
    · cases hnew <;> simp [Conn.toA, hplace]
  | @act i todo todo' c hc hplace _ =>
    have hset : total Conn.online (m.conns.set i { c with place := .handled todo' }) = _ :=
      total_online_set hc (by simp [Conn.toA, hplace]) rfl
    exact ⟨hset ▸ h.counts.online, hset ▸ h.counts.bound⟩
  | decrease hc hplace =>
    refine h.counts.decrease hc ((h.sound _ _ hc).online_handled hplace) ?_
    simp [Conn.online]

theorem Step.leads (h : Inv m) (hstep : Step m m') (hc : m.conns[i]? = some c) :
    ∃ c', m'.conns[i]? = some c' ∧ c'.listener = c.listener ∧ c.place.Leads c'.place := by
  have hstay : c.place.Leads c.place := .stay _
  -- only one connection is changed, if any is
  have hset : ∀ {j x} (x' : Conn), m.conns[j]? = some x → x'.listener = x.listener →
      x.place.Leads x'.place → ∃ c', (m.conns.set j x')[i]? = some c' ∧
        c'.listener = c.listener ∧ c.place.Leads c'.place := by
    intro j x x' hx hlistener hleads
    by_cases hj : j = i
    · subst hj
      cases hc.symm.trans hx
      exact ⟨x', getElem?_set_of_some hx _, hlistener, hleads⟩
    · exact ⟨c, by rwa [getElem?_set_ne hj], rfl, hstay⟩
  cases hstep with
  | none | quiet _ _ _ | increment _ _ | refuse _ _ _ => exact ⟨c, hc, rfl, hstay⟩
  | accept _ _ => exact ⟨c, getElem?_append_of_some hc _, rfl, hstay⟩
  | toA hln hloop _ hx | undo hln hloop hx =>
    obtain ⟨-, hplace⟩ := h.holds hln (by rw [hloop]; rfl) hx
    exact hset _ hx rfl (hplace ▸ .decide _)
  | send hln hloop hx =>
    obtain ⟨-, hplace⟩ := h.holds hln (by rw [hloop]; rfl) hx
    exact hset _ hx rfl (hplace ▸ .send _)
  | receive hln hchan hx hnew =>
    obtain ⟨-, hplace⟩ := h.queued hln hchan hx
    refine hset _ hx rfl (hplace ▸ ?_)
    cases hnew with
    | dropped => exact .drop
    | handled todo _ => exact .add todo
    | nonBlocking => exact .addNonBlocking
  | act hx hplace _ | decrease hx hplace => exact hset _ hx rfl (hplace ▸ .act _ _)

theorem Inv.known_set (h : Inv m) (hc : m.conns[i]? = some c) (hk : c'.listener = c.listener) :
    ∀ (j : Nat) (x : Conn), (m.conns.set i c')[j]? = some x →
      x.listener < m.listeners.length := by
  intro j x hx
  obtain ⟨-, rfl⟩ | ⟨-, hx⟩ := of_getElem?_set hx
  · rw [hk]
    exact h.known i c hc
  · exact h.known j x hx

theorem Step.known (h : Inv m) (hstep : Step m m') : ∀ (i : Nat) (c : Conn),
    m'.conns[i]? = some c → c.listener < m'.listeners.length := by
  cases hstep with
  | none => exact h.known
  | quiet _ _ _ | increment _ _ | refuse _ _ _ =>
    rw [length_set]
    exact h.known
  | accept hln _ =>
    intro j x hx
    rw [length_set]
    obtain ⟨-, rfl⟩ | hx := of_getElem?_append hx
    · exact (List.getElem?_eq_some_iff.1 hln).1
    · exact h.known j x hx
  | toA _ _ _ hc | undo _ _ hc | send _ _ hc | receive _ _ hc _ =>
    rw [length_set]
    exact h.known_set hc rfl
  | act hc _ _ | decrease hc _ => exact h.known_set hc rfl

theorem Step.inv (h : Inv m) (hstep : Step m m') : Inv m' where
  sound := hstep.sound h
  loops := hstep.loops h
  owner := hstep.owner h
  chans := hstep.chans h
  known := hstep.known h
  counts := hstep.counts h

theorem Step.fixed (hstep : Step m m') :
    m'.maxOnlineA = m.maxOnlineA ∧ m'.listeners.length = m.listeners.length := by
  cases hstep <;> simp

theorem listener_start {maxOnlineA maxLoad : Int} {listeners : List Bool}
    (h : ln ∈ (start maxOnlineA maxLoad listeners).listeners) :
    ln.loop = .test ∧ ∀ side, ln.chan side = [] := by
  obtain ⟨tls, -, rfl⟩ := mem_map.1 h
  exact ⟨rfl, fun side => by cases side <;> rfl⟩

theorem start_inv (maxOnlineA maxLoad : Int) (listeners : List Bool) :
    Inv (start maxOnlineA maxLoad listeners).toMux := by
  have hbetween : total between (start maxOnlineA maxLoad listeners).listeners = 0 :=
    total_eq_zero fun ln hln => by rw [between, (listener_start hln).1]
  have hclaims : total (claims maxOnlineA)
      (start maxOnlineA maxLoad listeners).listeners = 0 :=
    total_eq_zero fun ln hln => by rw [claims, (listener_start hln).1]
  constructor
  case sound | owner | known =>
    intro i c hc
    cases hc
  case loops =>
    intro k ln hln i place hholds
    rw [(listener_start (mem_of_getElem? hln)).1] at hholds
    cases hholds
  case chans =>
    intro k ln hln side i
    rw [(listener_start (mem_of_getElem? hln)).2]
    rfl
  case counts =>
    constructor
    · rw [hbetween]
      rfl
    · change ((0 : Nat) : Int) + (total (claims maxOnlineA) _ : Nat) ≤ max 0 maxOnlineA
      rw [hclaims]
      exact Int.le_max_left 0 maxOnlineA

variable {maxOnlineA maxLoad : Int} {listeners : List Bool}

theorem reaches_inv {guard : State → Event → Prop}
    (h : Reaches step guard (start maxOnlineA maxLoad listeners) s) :
    Inv s.toMux ∧ s.maxOnlineA = maxOnlineA ∧ s.listeners.length = listeners.length := by
  refine h.invariant (P := fun t => Inv t.toMux ∧ t.maxOnlineA = maxOnlineA ∧
    t.listeners.length = listeners.length)
    ⟨start_inv maxOnlineA maxLoad listeners, rfl, length_map _⟩ ?_
  rintro t e u ⟨hinv, hmax, hlen⟩ - hstep
  have hstep := step_cases hstep
  exact ⟨hstep.inv hinv, hstep.fixed.1.trans hmax, hstep.fixed.2.trans hlen⟩

/-! ## A connection is sent -/

def Event.ofLoop (k : Nat) : Event → Bool
  | .loop j | .accept j _ | .acceptError j _ | .sendError j | .increment j | .compare j | .undo j
  | .send j => j == k
  | _ => false

/-- The loop of a listener sends a connection if it goes on by itself. -/
def State.Sends (s : State) (k i : Nat) : Prop :=
  ∃ s' c, Reaches step (fun _ e => e.ofLoop k = true) s s' ∧ s'.conns[i]? = some c ∧
    c.held = false

theorem State.Sends.of_step (hstep : step s e = some s') (he : e.ofLoop k = true)
    (h : s'.Sends k i) : s.Sends k i := by
  obtain ⟨t, c, hreach, hat⟩ := h
  have hfirst : Reaches step (fun _ e => e.ofLoop k = true) s s' := Reaches.refl.next he hstep
  exact ⟨t, c, hfirst.trans hreach, hat⟩

def Listener.Room (ln : Listener) : Prop := ∀ side, (ln.chan side).length < capacity

theorem Listener.Room.setLoop (h : ln.Room) (loop : Loop) :
    Listener.Room { ln with loop := loop } :=
  fun side => by rw [chan_loop]; exact h side

section

variable (hln : s.listeners[k]? = some ln) (hroom : ln.Room)

include hln hroom

theorem sends_of_send (hloop : ln.loop = .send i side) (hc : s.conns[i]? = some c) :
    s.Sends k i := by
  have hstep : step s (.send k) = some ((s.setListener k
      { ln.setChan side (ln.chan side ++ [.conn i]) with loop := .test }).put i
        { c with place := .queued side, sent := c.sent ++ [(k, side)] }) := by
    simp [step, State.loopStep, hln, hloop, hc, Listener.send, hroom side]
  refine ⟨_, { c with place := .queued side, sent := c.sent ++ [(k, side)] },
    Reaches.refl.next (e := .send k) (beq_self_eq_true k) hstep, ?_, rfl⟩
  exact getElem?_set_of_some hc _

theorem sends_of_refused (hloop : ln.loop = .refused i) (hc : s.conns[i]? = some c) :
    s.Sends k i := by
  have hstep : step s (.undo k) = some { (s.setListener k { ln with loop := .send i .b }).put i
      { c with place := .decided .b } with onlineA := s.onlineA - 1 } := by
    simp [step, State.loopStep, hln, hloop, hc]
  refine State.Sends.of_step hstep (beq_self_eq_true k) ?_
  exact sends_of_send (getElem?_set_of_some hln _)
    (hroom.setLoop _) rfl (getElem?_set_of_some hc _)

theorem sends_of_counted {online : Int} (hloop : ln.loop = .counted i online)
    (hc : s.conns[i]? = some c) : s.Sends k i := by
  by_cases hle : online ≤ s.maxOnlineA
  · have hstep : step s (.compare k) = some ((s.setListener k { ln with loop := .send i .a }).put i
        { c with place := .decided .a }) := by
      simp [step, State.loopStep, hln, hloop, hc, hle]
    refine State.Sends.of_step hstep (beq_self_eq_true k) ?_
    exact sends_of_send (getElem?_set_of_some hln _) (hroom.setLoop _) rfl
      (getElem?_set_of_some hc _)
  · have hstep : step s (.compare k) = some (s.setListener k { ln with loop := .refused i }) := by
      simp [step, State.loopStep, hln, hloop, hle]
    refine State.Sends.of_step hstep (beq_self_eq_true k) ?_
    exact sends_of_refused (getElem?_set_of_some hln _) (hroom.setLoop _) rfl hc

theorem sends_of_holds (hholds : ln.loop.holds = some (i, place)) (hc : s.conns[i]? = some c) :
    s.Sends k i := by
  cases hloop : ln.loop with
  | accepted j =>
    rw [hloop] at hholds
    cases hholds
    have hstep : step s (.increment k) =
        some { s.setListener k { ln with loop := .counted i (s.onlineA + 1) } with
          onlineA := s.onlineA + 1 } := by
      simp [step, State.loopStep, hln, hloop]
    refine State.Sends.of_step hstep (beq_self_eq_true k) ?_
    exact sends_of_counted (getElem?_set_of_some hln _)
      (hroom.setLoop _) rfl hc
  | counted j online =>
    rw [hloop] at hholds
    cases hholds
    exact sends_of_counted hln hroom hloop hc
  | refused j =>
    rw [hloop] at hholds
    cases hholds
    exact sends_of_refused hln hroom hloop hc
  | send j side =>
    rw [hloop] at hholds
    cases hholds
    exact sends_of_send hln hroom hloop hc
  | _ =>
    rw [hloop] at hholds
    cases hholds

end

/-! ## Main results -/

theorem Conn.Sound.sent (h : c.Sound) :
    (c.held = true → c.sent = []) ∧ (c.held = false → ∃ side, c.sent = [(c.listener, side)]) := by
  unfold Conn.Sound at h
  unfold Conn.held
  cases hplace : c.place <;> rw [hplace] at h
  case accepted | decided => exact ⟨fun _ => h.1, nofun⟩
  case queued side => exact ⟨nofun, fun _ => ⟨side, h.1⟩⟩
  case handled | dropped => exact ⟨nofun, fun _ => ⟨.a, h.1⟩⟩
  case nonBlocking => exact ⟨nofun, fun _ => ⟨.b, h.1⟩⟩

/-- The calls of `decrease` for a connection: none unless the engine has taken it from A, and one as
soon as the engine has nothing left to do for it. -/
theorem Conn.Sound.decreased (h : c.Sound) :
    c.decreases ≤ 1 ∧ (c.toA = false → c.decreases = 0) ∧
      (c.place = .handled [] → c.decreases = 1) := by
  unfold Conn.Sound at h
  unfold Conn.toA
  cases hplace : c.place <;> rw [hplace] at h
  case accepted | decided | queued | dropped | nonBlocking => simp [h.2]
  case handled todo =>
    refine ⟨by omega, by simp, fun hnil => ?_⟩
    cases hnil
    exact h.2

/-- In every state that is reached:
* A connection that was accepted is still at its loop, which sends it by itself as soon as there is
  room in its channels, or was sent to exactly one of the two listeners of its loop.
* A connection that waits to be received is in the channel it was sent to, once, and in no other
  channel; any other connection is in no channel.  Each step leaves it where it is or takes it one
  step further, from the loop into one channel and out of that channel to the engine, and never
  back.
* `decrease` is called for it at most once, for connections of A only, and has been called when the
  engine is done with it.
* There are at most `maxOnlineA` connections that were dispatched to A and not decreased, and
  `onlineA` is their number whenever no loop is between its increment and its decision.  The counter
  is between 0 and the limit plus the number of loops throughout. -/
theorem mux_accounts (h : Reaches step (fun _ _ => True) (start maxOnlineA maxLoad listeners) s) :
    (∀ i c, s.conns[i]? = some c →
      (c.held = true → c.sent = [] ∧
        ∃ ln, s.listeners[c.listener]? = some ln ∧ (ln.Room → s.Sends c.listener i)) ∧
      (c.held = false → ∃ side, c.sent = [(c.listener, side)]) ∧
      (∀ side, c.place = .queued side → ∃ ln, s.listeners[c.listener]? = some ln ∧
        c.sent = [(c.listener, side)] ∧ .conn i ∈ ln.chan side) ∧
      (∀ k ln, s.listeners[k]? = some ln → ∀ side,
        (ln.chan side).count (.conn i) = if c.listener = k ∧ c.place = .queued side then 1 else 0) ∧
      (∀ e s', step s e = some s' → ∃ c', s'.conns[i]? = some c' ∧ c'.listener = c.listener ∧
        c.place.Leads c'.place) ∧
      c.decreases ≤ 1 ∧ (c.toA = false → c.decreases = 0) ∧
      (c.place = .handled [] → c.decreases = 1)) ∧
    (total Conn.online s.conns : Int) ≤ max 0 maxOnlineA ∧
    ((∀ ln ∈ s.listeners, ln.between = 0) → s.onlineA = total Conn.online s.conns) ∧
    0 ≤ s.onlineA ∧ s.onlineA ≤ max 0 maxOnlineA + listeners.length := by
  obtain ⟨hinv, hmax, hlen⟩ := reaches_inv h
  have honline := hinv.counts.online
  have hbound := hinv.counts.bound
  have hloops : total Listener.between s.listeners ≤ listeners.length :=
    hlen ▸ total_le_length fun ln _ => ln.between_le_one
  refine ⟨fun i c hc => ?_, by omega, fun hquiet => ?_, by omega, by omega⟩
  · have hsound := hinv.sound i c hc
    refine ⟨fun hheld => ⟨hsound.sent.1 hheld, ?_⟩, hsound.sent.2, fun side hplace => ?_,
      fun k ln hln side => ?_, fun e s' hstep => (step_cases hstep).leads hinv hc,
      hsound.decreased⟩
    · obtain ⟨ln, hln, hholds⟩ := hinv.owner i c hc hheld
      exact ⟨ln, hln, fun hroom => sends_of_holds hln hroom hholds hc⟩
    · obtain ⟨ln, hln, hmem⟩ := hinv.mem_chan hc hplace
      rw [Conn.Sound, hplace] at hsound
      exact ⟨ln, hln, hsound.1, hmem⟩
    · have hcount := hinv.chans k ln hln side i
      rwa [hc] at hcount
  · rw [honline, total_eq_zero hquiet]
    simp

/-- Two loops count their connections one after the other with room for one at A. -/
def contended : List Event :=
  [.loop 0, .loop 1, .accept 0 .tcp, .accept 1 .tcp, .increment 0, .increment 1, .compare 1,
    .compare 0, .send 0, .receiveA 0, .undo 1, .send 1, .receiveB 1, .act 0,
    .readEnd 0 false, .act 0, .act 0, .act 0, .act 0, .loop 0, .accept 0 .unix, .increment 0,
    .compare 0, .send 0]

theorem mux_accounts_contended :
    ∃ s, Reaches step (fun _ _ => True) (start 1 8 [false, true]) s ∧
      s.conns.map (·.sent) = [[(0, .a)], [(1, .b)], [(0, .a)]] ∧
      s.conns.map (·.decreases) = [1, 0, 0] ∧
      (∃ ln, s.listeners[0]? = some ln ∧ .conn 2 ∈ ln.chan .a) ∧ s.onlineA = 1 ∧
      s.onlineA = total Conn.online s.conns ∧ (total Conn.online s.conns : Int) ≤ 1 := by
  obtain ⟨s, hrun, hsent, hdecreases, hc, honline, hquiet⟩ :
      ∃ s, contended.foldlM (guarded step fun _ _ => true) (start 1 8 [false, true]) = some s ∧
        s.conns.map (·.sent) = [[(0, .a)], [(1, .b)], [(0, .a)]] ∧
        s.conns.map (·.decreases) = [1, 0, 0] ∧
        s.conns[2]? = some ⟨0, .unix, .queued .a, [(0, .a)], 0⟩ ∧ s.onlineA = 1 ∧
        ∀ ln ∈ s.listeners, ln.between = 0 :=
    ends_of_any (by decide +kernel)
  have hreach : Reaches step (fun _ _ => True) (start 1 8 [false, true]) s :=
    (Reaches.of_foldlM hrun).mono fun _ _ _ => trivial
  obtain ⟨hconns, hle, heq, -⟩ := mux_accounts hreach
  obtain ⟨ln, hln, -, hmem⟩ := (hconns 2 _ hc).2.2.1 .a rfl
  exact ⟨s, hreach, hsent, hdecreases, ⟨ln, hln, hmem⟩, honline, heq hquiet, hle⟩

end Nbio.Lmux
