import Nbio.Lib.Machine

/-!
# The listener mux

A `ListenerMux` has an accept loop for each of its listeners.  A loop adds one to `onlineA` for a
connection it has accepted and sends the connection to its listener A if the result is within
`maxOnlineA`; otherwise it takes the one away again and sends it to its listener B.  The engine
takes the connections of A to `AddConnNonTLSBlocking` or `AddConnTLSBlocking`, and calls `decrease`
for each of them once: where these fail, or when the goroutine that reads the connection ends.

What a goroutine does with a connection between two atomic operations is one step, and the
goroutines take their steps in any order.  The counter is an `int32` in the source and an integer
here; it stays between 0 and the limit plus the number of loops.
-/

namespace Nbio.Lmux

open Nbio.Lib Option

/-! ## The engine's side -/

/-- The dynamic type of a `net.Conn`. -/
inductive Kind where
  | nbio
  | tcp
  | unix
  | tls
  | ltls
  | other
deriving DecidableEq, Repr

/-- `conn2Array`: the address of the connection and its type. -/
def conn2Array (kind : Kind) (i : Nat) : Option (Nat × Kind) :=
  match kind with
  | .other => none
  | kind => some (i, kind)

/-- What a goroutine of the engine does with a connection. -/
inductive Action where
  | close
  | decrease
  | onOpen
  /-- `go engine.readConnBlocking` or `go engine.readTLSConnBlocking`. -/
  | read (tls : Bool)
  | closeAndClean
  | closeTLS
  | delete
  | onClose
deriving DecidableEq, Repr

structure Engine where
  maxLoad : Int
  conns : List (Nat × Kind)
deriving DecidableEq, Repr

/-- What `AddConnNonTLSBlocking` and `AddConnTLSBlocking` have in common. -/
def Engine.addConnBlocking (tls : Bool) (e : Engine) (i : Nat) (kind : Kind) :
    Engine × List Action :=
  if e.maxLoad ≤ e.conns.length then (e, [.close, .decrease])
  else if kind = .tcp ∨ kind = .unix then
    match conn2Array kind i with
    | none => (e, [.close, .decrease])
    | some key => ({ e with conns := e.conns.insert key }, [.onOpen, .read tls])
  else (e, [.close, .decrease])

def Engine.AddConnNonTLSBlocking : Engine → Nat → Kind → Engine × List Action :=
  Engine.addConnBlocking false

def Engine.AddConnTLSBlocking : Engine → Nat → Kind → Engine × List Action :=
  Engine.addConnBlocking true

/-- What `readConnBlocking` defers. -/
def readConnBlocking (trasfered : Bool) : List Action :=
  (if trasfered then [] else [.closeAndClean]) ++ [.delete, .onClose, .decrease]

/-- What `readTLSConnBlocking` defers. -/
def readTLSConnBlocking (trasfered : Bool) : List Action :=
  (if trasfered then [] else [.closeAndClean, .closeTLS]) ++ [.delete, .onClose, .decrease]

/-- `delete(engine.conns, key)` at the end of a reader. -/
def Engine.delete (e : Engine) (i : Nat) (kind : Kind) : Engine :=
  if kind = .tcp ∨ kind = .unix then
    { e with conns := e.conns.filter fun key => some key ≠ conn2Array kind i }
  else e

/-! ## The state -/

/-- The two listeners that `Mux` returns. -/
inductive Side where
  | a
  | b
deriving DecidableEq, Repr

inductive Place where
  /-- Its loop has accepted it and not yet decided. -/
  | accepted
  /-- Its loop has decided for a listener and is to send it there. -/
  | decided (side : Side)
  /-- It is in the channel of a listener. -/
  | queued (side : Side)
  /-- The engine has taken it from A and has this left to do. -/
  | handled (todo : List Action)
  /-- The engine has taken it from A behind its shutdown. -/
  | dropped
  /-- The engine has taken it from B. -/
  | nonBlocking
deriving DecidableEq, Repr

structure Conn where
  listener : Nat
  kind : Kind
  place : Place
  /-- The listeners that it was sent to. -/
  sent : List (Nat × Side)
  /-- The calls of `decrease` for it. -/
  decreases : Nat
deriving DecidableEq, Repr

inductive Loop where
  /-- `for !lm.shutdown`. -/
  | test
  | accept
  /-- It has accepted a connection. -/
  | accepted (i : Nat)
  /-- It has added one to `onlineA`, with this result. -/
  | counted (i : Nat) (online : Int)
  /-- The result was above the limit; it is to take the one away. -/
  | refused (i : Nat)
  /-- It is to send the connection. -/
  | send (i : Nat) (side : Side)
  /-- It has an error to send to A, and then to B. -/
  | failed (side : Side)
  | exited
deriving DecidableEq, Repr

/-- The content of a channel: an error, or a connection. -/
inductive Item where
  | err
  | conn (i : Nat)
deriving DecidableEq, Repr

structure Listener where
  /-- Whether the engine adds the connections of A by `AddConnTLSBlocking`. -/
  tls : Bool
  loop : Loop
  chanA : List Item
  chanB : List Item
deriving DecidableEq, Repr

/-- The mux with the connections that its loops have accepted. -/
structure Mux where
  maxOnlineA : Int
  onlineA : Int
  listeners : List Listener
  conns : List Conn
deriving DecidableEq, Repr

structure State extends Mux where
  shutdown : Bool
  engine : Engine
  engineShutdown : Bool
deriving DecidableEq, Repr

/-- A mux that has been started, with a listener for each element of the list. -/
def start (maxOnlineA maxLoad : Int) (listeners : List Bool) : State :=
  { maxOnlineA := maxOnlineA, onlineA := 0
    listeners := listeners.map fun tls => { tls := tls, loop := .test, chanA := [], chanB := [] }
    conns := [], shutdown := false, engine := { maxLoad := maxLoad, conns := [] }
    engineShutdown := false }

/-- The capacity of `chEvent`. -/
def capacity : Nat := 1024 * 64

namespace Listener

def chan (ln : Listener) : Side → List Item
  | .a => ln.chanA
  | .b => ln.chanB

def setChan (ln : Listener) (side : Side) (items : List Item) : Listener :=
  match side with
  | .a => { ln with chanA := items }
  | .b => { ln with chanB := items }

/-- A send to `chEvent`, which waits while the channel is full. -/
def send (ln : Listener) (side : Side) (item : Item) : Option Listener :=
  if (ln.chan side).length < capacity then some (ln.setChan side (ln.chan side ++ [item]))
  else none

end Listener

namespace State

variable (s : State)

def put (i : Nat) (c : Conn) : State := { s with conns := s.conns.set i c }

def setListener (k : Nat) (ln : Listener) : State := { s with listeners := s.listeners.set k ln }

end State

/-! ## Steps -/

inductive Event where
  /-- The loop of a listener looks at `shutdown`. -/
  | loop (k : Nat)
  | accept (k : Nat) (kind : Kind)
  /-- `Accept` fails. -/
  | acceptError (k : Nat) (timeout : Bool)
  | sendError (k : Nat)
  | increment (k : Nat)
  | compare (k : Nat)
  /-- `atomic.AddInt32(&lm.onlineA, -1)`, by the loop. -/
  | undo (k : Nat)
  | send (k : Nat)
  /-- The engine receives from A, or from B. -/
  | receiveA (k : Nat)
  | receiveB (k : Nat)
  /-- The engine does the next thing for a connection. -/
  | act (i : Nat)
  /-- The goroutine that reads the connection ends. -/
  | readEnd (i : Nat) (trasfered : Bool)
  | stop
  /-- The engine's `shutdown` is set. -/
  | shutdown
deriving DecidableEq, Repr

def State.addA (s : State) (i : Nat) (c : Conn) (tls : Bool) : State :=
  if s.engineShutdown then s.put i { c with place := .dropped }
  else
    let r := if tls then s.engine.AddConnTLSBlocking i c.kind
      else s.engine.AddConnNonTLSBlocking i c.kind
    { s.put i { c with place := .handled r.2 } with engine := r.1 }

/-- The engine does the first of what it has to do for a connection.  What does not concern the
counter or the table of connections is left out. -/
def State.act (s : State) (i : Nat) (c : Conn) : List Action → Option State
  | [] => none
  | .read _ :: _ => none
  | .decrease :: todo =>
    some { s.put i { c with place := .handled todo, decreases := c.decreases + 1 } with
      onlineA := s.onlineA - 1 }
  | .delete :: todo =>
    some { s.put i { c with place := .handled todo } with engine := s.engine.delete i c.kind }
  | _ :: todo => some (s.put i { c with place := .handled todo })

def State.loopStep (s : State) (k : Nat) (ln : Listener) : Event → Option State
  | .loop _ =>
    if ln.loop = .test then
      some (s.setListener k { ln with loop := if s.shutdown then .exited else .accept })
    else none
  | .accept _ kind =>
    if ln.loop = .accept then
      some { s.setListener k { ln with loop := .accepted s.conns.length } with
        conns := s.conns ++ [⟨k, kind, .accepted, [], 0⟩] }
    else none
  | .acceptError _ timeout =>
    if ln.loop = .accept then
      some (s.setListener k { ln with loop := if timeout then .test else .failed .a })
    else none
  | .sendError _ =>
    match ln.loop with
    | .failed .a =>
      (ln.send .a .err).map fun ln => s.setListener k { ln with loop := .failed .b }
    | .failed .b => (ln.send .b .err).map fun ln => s.setListener k { ln with loop := .exited }
    | _ => none
  | .increment _ =>
    match ln.loop with
    | .accepted i =>
      some { s.setListener k { ln with loop := .counted i (s.onlineA + 1) } with
        onlineA := s.onlineA + 1 }
    | _ => none
  | .compare _ =>
    match ln.loop with
    | .counted i online =>
      if online ≤ s.maxOnlineA then
        s.conns[i]?.map fun c => (s.setListener k { ln with loop := .send i .a }).put i
          { c with place := .decided .a }
      else some (s.setListener k { ln with loop := .refused i })
    | _ => none
  | .undo _ =>
    match ln.loop with
    | .refused i =>
      s.conns[i]?.map fun c => { (s.setListener k { ln with loop := .send i .b }).put i
        { c with place := .decided .b } with onlineA := s.onlineA - 1 }
    | _ => none
  | .send _ =>
    match ln.loop with
    | .send i side =>
      s.conns[i]?.bind fun c => (ln.send side (.conn i)).map fun ln =>
        (s.setListener k { ln with loop := .test }).put i
          { c with place := .queued side, sent := c.sent ++ [(k, side)] }
    | _ => none
  | _ => none

def State.receive (s : State) (k : Nat) (ln : Listener) (side : Side) : Option State :=
  match ln.chan side with
  | [] => none
  | .err :: rest => some (s.setListener k (ln.setChan side rest))
  | .conn i :: rest =>
    s.conns[i]?.map fun c =>
      let s := s.setListener k (ln.setChan side rest)
      match side with
      | .a => s.addA i c ln.tls
      | .b => s.put i { c with place := .nonBlocking }

def State.connStep (s : State) (i : Nat) (c : Conn) : Event → Option State
  | .act _ =>
    match c.place with
    | .handled todo => s.act i c todo
    | _ => none
  | .readEnd _ trasfered =>
    match c.place with
    | .handled [.read tls] =>
      let todo := if tls then readTLSConnBlocking trasfered else readConnBlocking trasfered
      some (s.put i { c with place := .handled todo })
    | _ => none
  | _ => none

def step (s : State) (e : Event) : Option State :=
  match e with
  | .stop => some { s with shutdown := true }
  | .shutdown => some { s with engineShutdown := true }
  | .loop k | .accept k _ | .acceptError k _ | .sendError k | .increment k | .compare k | .undo k
  | .send k => s.listeners[k]?.bind fun ln => s.loopStep k ln e
  | .receiveA k => s.listeners[k]?.bind fun ln => s.receive k ln .a
  | .receiveB k => s.listeners[k]?.bind fun ln => s.receive k ln .b
  | .act i | .readEnd i _ => s.conns[i]?.bind fun c => s.connStep i c e

/-! ## What a step does to the connections -/

variable {s s' : State} {m m' : Mux} {e : Event} {c c' : Conn} {i k : Nat} {ln ln' : Listener}
  {side : Side}

def Action.owes : Action → Nat
  | .decrease | .read _ => 1
  | _ => 0

theorem Engine.addConnBlocking_owes (tls : Bool) (e : Engine) (i : Nat) (kind : Kind) :
    total Action.owes (e.addConnBlocking tls i kind).2 = 1 := by
  unfold Engine.addConnBlocking
  split
  · rfl
  · split
    · split <;> rfl
    · rfl

theorem readConnBlocking_owes (trasfered : Bool) :
    total Action.owes (readConnBlocking trasfered) = 1 := by
  cases trasfered <;> rfl

theorem readTLSConnBlocking_owes (trasfered : Bool) :
    total Action.owes (readTLSConnBlocking trasfered) = 1 := by
  cases trasfered <;> rfl

/-- The connection that a loop has, and where that is. -/
def Loop.holds : Loop → Option (Nat × Place)
  | .accepted i | .counted i _ | .refused i => some (i, .accepted)
  | .send i side => some (i, .decided side)
  | _ => none

def Listener.between (ln : Listener) : Nat :=
  match ln.loop with
  | .counted _ _ | .refused _ => 1
  | _ => 0

/-- Whether the loop of a listener has been counted within the limit. -/
def Listener.claims (maxOnlineA : Int) (ln : Listener) : Nat :=
  match ln.loop with
  | .counted _ online => if online ≤ maxOnlineA then 1 else 0
  | _ => 0

/-- Where the engine has a connection that it has just received. -/
inductive Taken : Side → Place → Prop where
  | dropped : Taken .a .dropped
  | handled (todo : List Action) (howes : total Action.owes todo = 1) : Taken .a (.handled todo)
  | nonBlocking : Taken .b .nonBlocking

inductive Step (m : Mux) : Mux → Prop where
  | none : Step m m
  /-- A loop without a connection goes on, or an error is received. -/
  | quiet {k : Nat} {ln ln' : Listener} (hln : m.listeners[k]? = some ln)
    (hloop : ln'.loop = ln.loop ∨ ln.loop.holds = none ∧ ln'.loop.holds = none)
    (hchan : ∀ side i, (ln'.chan side).count (.conn i) = (ln.chan side).count (.conn i)) :
    Step m { m with listeners := m.listeners.set k ln' }
  | accept {k : Nat} {kind : Kind} {ln : Listener} (hln : m.listeners[k]? = some ln)
    (hloop : ln.loop = .accept) :
    Step m { m with
      listeners := m.listeners.set k { ln with loop := .accepted m.conns.length }
      conns := m.conns ++ [⟨k, kind, .accepted, [], 0⟩] }
  | increment {k i : Nat} {ln : Listener} (hln : m.listeners[k]? = some ln)
    (hloop : ln.loop = .accepted i) :
    Step m { m with
      listeners := m.listeners.set k { ln with loop := .counted i (m.onlineA + 1) }
      onlineA := m.onlineA + 1 }
  | toA {k i : Nat} {online : Int} {ln : Listener} {c : Conn} (hln : m.listeners[k]? = some ln)
    (hloop : ln.loop = .counted i online) (hle : online ≤ m.maxOnlineA)
    (hc : m.conns[i]? = some c) :
    Step m { m with
      listeners := m.listeners.set k { ln with loop := .send i .a }
      conns := m.conns.set i { c with place := .decided .a } }
  | refuse {k i : Nat} {online : Int} {ln : Listener} (hln : m.listeners[k]? = some ln)
    (hloop : ln.loop = .counted i online) (hlt : m.maxOnlineA < online) :
    Step m { m with listeners := m.listeners.set k { ln with loop := .refused i } }
  | undo {k i : Nat} {ln : Listener} {c : Conn} (hln : m.listeners[k]? = some ln)
    (hloop : ln.loop = .refused i) (hc : m.conns[i]? = some c) :
    Step m { m with
      listeners := m.listeners.set k { ln with loop := .send i .b }
      conns := m.conns.set i { c with place := .decided .b }
      onlineA := m.onlineA - 1 }
  | send {k i : Nat} {side : Side} {ln : Listener} {c : Conn} (hln : m.listeners[k]? = some ln)
    (hloop : ln.loop = .send i side) (hc : m.conns[i]? = some c) :
    Step m { m with
      listeners := m.listeners.set k
        { ln.setChan side (ln.chan side ++ [.conn i]) with loop := .test }
      conns := m.conns.set i
        { c with place := .queued side, sent := c.sent ++ [(k, side)] } }
  | receive {k i : Nat} {side : Side} {rest : List Item} {place : Place} {ln : Listener} {c : Conn}
    (hln : m.listeners[k]? = some ln) (hchan : ln.chan side = .conn i :: rest)
    (hc : m.conns[i]? = some c) (hplace : Taken side place) :
    Step m { m with
      listeners := m.listeners.set k (ln.setChan side rest)
      conns := m.conns.set i { c with place := place } }
  | act {i : Nat} {todo todo' : List Action} {c : Conn} (hc : m.conns[i]? = some c)
    (hplace : c.place = .handled todo)
    (howes : total Action.owes todo' = total Action.owes todo) :
    Step m { m with conns := m.conns.set i { c with place := .handled todo' } }
  | decrease {i : Nat} {todo : List Action} {c : Conn} (hc : m.conns[i]? = some c)
    (hplace : c.place = .handled (.decrease :: todo)) :
    Step m { m with
      conns := m.conns.set i { c with place := .handled todo, decreases := c.decreases + 1 }
      onlineA := m.onlineA - 1 }

@[simp] theorem Listener.chan_loop (ln : Listener) (loop : Loop) (side : Side) :
    Listener.chan { ln with loop := loop } side = ln.chan side := by
  cases side <;> rfl

@[simp] theorem Listener.loop_setChan (ln : Listener) (side : Side) (items : List Item) :
    (ln.setChan side items).loop = ln.loop := by
  cases side <;> rfl

theorem Listener.chan_setChan (ln : Listener) (side side' : Side) (items : List Item) :
    (ln.setChan side items).chan side' = if side' = side then items else ln.chan side' := by
  cases side <;> cases side' <;> rfl

theorem Listener.send_eq_some {item : Item} (h : ln.send side item = some ln') :
    ln' = ln.setChan side (ln.chan side ++ [item]) := by
  unfold Listener.send at h
  split at h
  · exact (some.inj h).symm
  · cases h

theorem Listener.count_send_err (ln : Listener) (side side' : Side) (i : Nat) :
    ((ln.setChan side (ln.chan side ++ [.err])).chan side').count (.conn i) =
      (ln.chan side').count (.conn i) := by
  rw [Listener.chan_setChan]
  split
  · next h => simp [h]
  · rfl

theorem State.act_cases {todo : List Action} (hc : s.conns[i]? = some c)
    (hplace : c.place = .handled todo) (h : s.act i c todo = some s') :
    Step s.toMux s'.toMux := by
  cases todo with
  | nil => cases h
  | cons a todo =>
    cases a with
    | read tls => cases h
    | decrease =>
      cases h
      exact .decrease hc hplace
    | close | onOpen | closeAndClean | closeTLS | delete | onClose =>
      cases h
      exact .act hc hplace (by simp [total, Action.owes])

theorem State.connStep_cases (hc : s.conns[i]? = some c) (h : s.connStep i c e = some s') :
    Step s.toMux s'.toMux := by
  cases e with
  | act j =>
    simp only [State.connStep] at h
    split at h
    · next todo hplace => exact State.act_cases hc hplace h
    · cases h
  | readEnd j trasfered =>
    simp only [State.connStep] at h
    split at h
    · next tls hplace =>
      cases h
      refine .act hc hplace ?_
      split
      · exact readTLSConnBlocking_owes trasfered
      · exact readConnBlocking_owes trasfered
    · cases h
  | _ => cases h

theorem State.receive_cases (hln : s.listeners[k]? = some ln) (h : s.receive k ln side = some s') :
    Step s.toMux s'.toMux := by
  unfold State.receive at h
  split at h
  · cases h
  · next rest hchan =>
    cases h
    refine .quiet hln (.inl (Listener.loop_setChan _ _ _)) fun side' i => ?_
    rw [Listener.chan_setChan]
    split
    · next hside => simp [hside, hchan]
    · rfl
  · next i rest hchan =>
    obtain ⟨c, hc, rfl⟩ := map_eq_some_iff.1 h
    cases side with
    | a =>
      dsimp only
      unfold State.addA
      split
      · exact .receive hln hchan hc .dropped
      · refine .receive hln hchan hc (.handled _ ?_)
        split <;> exact Engine.addConnBlocking_owes _ _ _ _
    | b => exact .receive hln hchan hc .nonBlocking

theorem State.loopStep_cases (hln : s.listeners[k]? = some ln) (h : s.loopStep k ln e = some s') :
    Step s.toMux s'.toMux := by
  cases e with
  | loop j =>
    obtain ⟨hloop, ⟨⟩⟩ := ite_none_right_eq_some.1 h
    refine .quiet hln (.inr ⟨by rw [hloop]; rfl, ?_⟩) fun side i => by simp
    split <;> rfl
  | accept j kind =>
    obtain ⟨hloop, ⟨⟩⟩ := ite_none_right_eq_some.1 h
    exact .accept hln hloop
  | acceptError j timeout =>
    obtain ⟨hloop, ⟨⟩⟩ := ite_none_right_eq_some.1 h
    refine .quiet hln (.inr ⟨by rw [hloop]; rfl, ?_⟩) fun side i => by simp
    split <;> rfl
  | sendError j =>
    simp only [State.loopStep] at h
    split at h
    · next hloop =>
      obtain ⟨ln', hsend, rfl⟩ := map_eq_some_iff.1 h
      refine .quiet hln (.inr ⟨by rw [hloop]; rfl, rfl⟩) fun side i => ?_
      rw [Listener.send_eq_some hsend]
      exact Listener.count_send_err _ _ _ _
    · next hloop =>
      obtain ⟨ln', hsend, rfl⟩ := map_eq_some_iff.1 h
      refine .quiet hln (.inr ⟨by rw [hloop]; rfl, rfl⟩) fun side i => ?_
      rw [Listener.send_eq_some hsend]
      exact Listener.count_send_err _ _ _ _
    · cases h
  | increment j =>
    simp only [State.loopStep] at h
    split at h
    · next i hloop =>
      cases h
      exact .increment hln hloop
    · cases h
  | compare j =>
    simp only [State.loopStep] at h
    split at h
    · next i online hloop =>
      split at h
      · next hle =>
        obtain ⟨c, hc, rfl⟩ := map_eq_some_iff.1 h
        exact .toA hln hloop hle hc
      · next hlt =>
        cases h
        exact .refuse hln hloop (Int.lt_of_not_ge hlt)
    · cases h
  | undo j =>
    simp only [State.loopStep] at h
    split at h
    · next i hloop =>
      obtain ⟨c, hc, rfl⟩ := map_eq_some_iff.1 h
      exact .undo hln hloop hc
    · cases h
  | send j =>
    simp only [State.loopStep] at h
    split at h
    · next i side hloop =>
      obtain ⟨c, hc, h⟩ := bind_eq_some_iff.1 h
      obtain ⟨ln', hsend, rfl⟩ := map_eq_some_iff.1 h
      obtain rfl := Listener.send_eq_some hsend
      exact .send hln hloop hc
    · cases h
  | _ => cases h

theorem step_cases (h : step s e = some s') : Step s.toMux s'.toMux := by
  cases e with
  | stop | shutdown =>
    cases h
    exact .none
  | loop k | accept k kind | acceptError k timeout | sendError k | increment k | compare k | undo k
  | send k =>
    obtain ⟨ln, hln, h⟩ := bind_eq_some_iff.1 h
    exact State.loopStep_cases hln h
  | receiveA k | receiveB k =>
    obtain ⟨ln, hln, h⟩ := bind_eq_some_iff.1 h
    exact State.receive_cases hln h
  | act i | readEnd i trasfered =>
    obtain ⟨c, hc, h⟩ := bind_eq_some_iff.1 h
    exact State.connStep_cases hc h

end Nbio.Lmux
