import Nbio.Http.ByteStep
import Nbio.Http.Segmentation

/-!
# The calls of a run

A byte adds at most one call to those that have been made, and a piece of a body at most two, so
that a run of the scanner keeps the calls made before it, also if it fails (`run_log_grows`).
-/

namespace Nbio.Http

open Nbio.Go Nbio.Lib List

/-- The calls made by a run of the scanner, whether it fails or not. -/
def callsOf : Except Stop (Cfg × Bytes) → Log
  | .ok c => c.1.log
  | .error e => e.log

theorem Result.Matches.log_eq {r : Result} {o : Except Stop (Cfg × Bytes)} (h : r.Matches o) :
    r.log = callsOf o := by
  cases o with
  | ok c => rw [h.ok c.1 c.2 rfl, callsOf]
  | error e => exact (h.error e rfl).1

section Grow

variable {proc : Processor}

theorem ByteStep.log_grows {p q : Fields} {log log' : Log} {c : UInt8}
    (h : ByteStep proc p log c q log') : log <+: log' := by
  cases h with
  | stay _ => exact prefix_rfl
  | move _ _ => exact prefix_rfl
  | call _ _ _ => exact prefix_append _ _
  | line _ _ => exact prefix_append _ _
  | blank _ _ => exact prefix_append _ _
  | complete _ _ _ => exact prefix_append _ _

theorem ByteFail.log_grows {p q : Fields} {log log' : Log} (h : ByteFail p log q log') :
    log <+: log' := by
  rcases h.calls with rfl | ⟨cb, -, rfl⟩
  · exact prefix_rfl
  · exact prefix_append _ _

theorem endBody_log_grows (p : Fields) (log : Log) : log <+: (endBody proc p log).2 := by
  unfold endBody
  split
  · exact prefix_append _ _
  · exact prefix_rfl

theorem Cfg.next_log_grows {k k' : Cfg} {xs : Bytes} {n : Nat}
    (h : (scanner proc).next k xs = .step n k') : k.log <+: k'.log := by
  obtain ⟨-, ⟨cl, -, -, -, -, -, hlog, -⟩ | ⟨c, rest, s, -, -, -, hgo, -⟩⟩ := next_cases h
  · rw [hlog]
    exact (prefix_append _ _).trans (endBody_log_grows _ _)
  · have hdoes := onByte_does proc k.p k.log (some k.kept) c
    rw [hgo] at hdoes
    exact ByteStep.log_grows hdoes

theorem Cfg.stop_log_grows {k : Cfg} {xs : Bytes} {e : Stop}
    (h : (scanner proc).next k xs = .stop e) : k.log <+: e.log := by
  obtain ⟨cl, message, -, rfl⟩ | ⟨c, p, log, -, hbyte⟩ := stop_cases h
  · exact prefix_append _ _
  · have hdoes := onByte_does proc k.p k.log (some k.kept) c
    obtain ⟨err, hfail, rfl⟩ | ⟨hpanic, rfl⟩ := hbyte
    · rw [hfail] at hdoes
      exact ByteFail.log_grows hdoes
    · rw [hpanic] at hdoes
      exact hdoes.2 ▸ prefix_rfl

theorem run_log_grows (k : Cfg) (xs : Bytes) : k.log <+: callsOf ((scanner proc).run k xs) := by
  cases h : (scanner proc).run k xs with
  | ok c =>
    exact (scanner proc).run_inv (P := fun k' _ => k.log <+: k'.log)
      (fun hk hn => hk.trans (Cfg.next_log_grows hn)) prefix_rfl h
  | error e =>
    exact (scanner proc).run_error (P := fun k' _ => k.log <+: k'.log)
      (fun hk hn => hk.trans (Cfg.next_log_grows hn))
      (fun hk hn => hk.trans (Cfg.stop_log_grows hn))
      prefix_rfl h

end Grow

end Nbio.Http
