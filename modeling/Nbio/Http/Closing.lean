import Nbio.Http.Chunked
import Nbio.Net.Backlog

/-!
# The response that ends a connection

When a request is to be the last of its connection, `flushResponse` calls `conn.Close` right
behind the last `conn.Write` of the response.  `Write` has taken all the data, but what the kernel
had no room for waits in `writeList`, and closing the connection releases that list.  Whether the
response is delivered in full depends on what the kernel answers to the calls made for the response
and for what waited before it, and on the writing events that the poller has meanwhile.
-/

namespace Nbio.Net

@[simp] theorem Conn.closeWithError_accepted {c : Conn} (err : Option Err) :
    (c.closeWithError err).accepted = c.accepted := by
  unfold closeWithError closeWithErrorWithoutLock
  split
  · rfl
  · dsimp only
    split <;> rfl

end Nbio.Net

namespace Nbio.Http

open Nbio.Go Nbio.Net

namespace Exchange

/-- The data passed to `conn.Write` for a response whose handler has returned. -/
def writes (env : Env) (x : Exchange) : List Bytes := (x.flushResponse env).2.sent

/-- The connection as `flushResponse` leaves it, from the last `conn.Write` on. -/
def leave (env : Env) (x : Exchange) (c : Conn) : Conn :=
  if x.res.conn = false ∨ x.res.hijacked then c
  else if (x.flushResponse env).1.isSome then c.closeWithError none
  -- the data may still be in the write list
  else if x.res.request.close then c.closeWithError none
  else c

theorem leave_closing (env : Env) {x : Exchange} (hconn : x.res.conn = true)
    (hhijacked : x.res.hijacked = false) (hclose : x.res.request.close = true) (c : Conn) :
    x.leave env c = c.closeWithError none := by
  simp [leave, hconn, hhijacked, hclose]

end Exchange

/-- A closing response is delivered in full exactly if the kernel, by its answers to the calls that
the Writes of the response and the writing events between them make, takes as many bytes as there
are: those that waited before and those of the response, whatever they are.  Without a writing event
no byte may wait before, and if no entry does, the kernel has to take all the data of each call of
`write`. -/
theorem closing_response_delivered_iff (g : Engine) (k : Kernel) {c : Conn} (hc : c.WF)
    (env : Env) {x : Exchange} (hconn : x.res.conn = true) (hhijacked : x.res.hijacked = false)
    (hclose : x.res.request.close = true) {calls : List Call}
    (hcalls : Conveys calls (x.writes env)) (hdone : (run g k c [] calls).current = none)
    (hopen : (run g k c [] calls).conn.closed = false) :
    let after := x.leave env (run g k c [] calls).conn
    let delivered := after.accepted = c.stream ++ (x.writes env).flatten
    let lengths := (x.writes env).map List.length
    after.closed = true ∧
      (delivered ↔ (c.backlog.run g k (events calls)).left = 0) ∧
      (events calls = lengths.map .write →
        (c.pending ≠ [] → ¬ delivered) ∧
        (c.writeList = [] → (delivered ↔ k.takesAll c.calls lengths = true))) := by
  intro after delivered lengths
  have hafter : after = (run g k c [] calls).conn.closeWithError none :=
    x.leave_closing env hconn hhijacked hclose _
  obtain ⟨hstream, hbacklog⟩ := hcalls.run_backlog hc [] hdone hopen
  have hiff : delivered ↔ (c.backlog.run g k (events calls)).left = 0 := by
    change after.accepted = _ ↔ _
    rw [hafter, Conn.closeWithError_accepted, ← hstream, ← hbacklog, Conn.left_backlog,
      List.length_eq_zero_iff]
    exact List.self_eq_append_right
  refine ⟨by rw [hafter, Conn.closeWithError_closed], hiff, fun hevents => ⟨fun hne => ?_, ?_⟩⟩
  · have hpos : 0 < c.backlog.left := by
      rw [Conn.left_backlog]
      exact List.length_pos_iff.2 hne
    rw [hiff, hevents]
    exact (Backlog.left_run_writes_pos hpos lengths).ne'
  · intro hnil
    rw [hiff, hevents]
    exact Backlog.left_run_writes_idle (Conn.pieces_backlog.2 hnil) lengths

/-- The response to a request of HTTP/1.0, when its handler has written two bytes. -/
def closingExchange : Exchange :=
  let request : RequestInfo :=
    { proto := ascii "HTTP/1.0", protoMajor := 1, protoMinor := 0, close := true }
  (newResponse request).exchange.call crEnv (.write (ascii "hi"))

def closingText : Bytes :=
  ascii "HTTP/1.0 200 OK\r\nContent-Type: text/plain; charset=utf-8\r\nContent-Length: 2\r\n" ++
    ascii "Connection: close\r\nDate: \r\n\r\nhi"

theorem closingExchange_writes : closingExchange.writes crEnv = [closingText] := by
  decide +kernel

theorem closingExchange_res : closingExchange.res.conn = true ∧
    closingExchange.res.hijacked = false ∧ closingExchange.res.request.close = true := by
  decide +kernel

/-- A kernel that takes three bytes of the first `write`, and later everything. -/
def slowKernel : Kernel := { shortKernel with write := fun i => .ok (if i = 0 then 3 else 1000) }

theorem closing_response_delivered_iff_flushed :
    let calls : List Call := [.write closingText, .flush 5]
    let before := (run plainEngine slowKernel (newConn 7 .tcp) [] calls).conn
    closingExchange.writes crEnv = [closingText] ∧
      ((newConn 7 .tcp).backlog.run plainEngine slowKernel (events calls)).left = 0 ∧
      (closingExchange.leave crEnv before).accepted = closingText := by
  intro calls before
  have hcalls : Conveys calls (closingExchange.writes crEnv) := by
    rw [closingExchange_writes]
    exact .write _ (.flush 5 .nil)
  obtain ⟨hconn, hhijacked, hclose⟩ := closingExchange_res
  obtain ⟨hdone, hopen, hleft⟩ :
      (run plainEngine slowKernel (newConn 7 .tcp) [] calls).current = none ∧
        before.closed = false ∧
        ((newConn 7 .tcp).backlog.run plainEngine slowKernel (events calls)).left = 0 := by
    decide +kernel
  obtain ⟨-, hiff, -⟩ := closing_response_delivered_iff plainEngine slowKernel
    ⟨rfl, by simp [newConn]⟩ crEnv hconn hhijacked hclose hcalls hdone hopen
  have hall := hiff.2 hleft
  rw [closingExchange_writes] at hall
  exact ⟨closingExchange_writes, hleft, hall.trans (List.append_nil _)⟩

/-- The kernel takes three bytes of the response and has no room for more: `conn.Close` drops the
rest. -/
theorem closing_response_is_cut :
    closingExchange.res.request.close = true ∧ closingExchange.writes crEnv = [closingText] ∧
    let before := (run plainEngine shortKernel (newConn 7 .tcp) [] [.write closingText]).conn
    let after := closingExchange.leave crEnv before
    before.closed = false ∧ before.stream = closingText ∧ after.closed = true ∧
      after.accepted = ascii "HTT" ∧ after.accepted ≠ closingText := by
  obtain ⟨hconn, hhijacked, hclose⟩ := closingExchange_res
  refine ⟨hclose, closingExchange_writes, ?_⟩
  decide +kernel

end Nbio.Http
