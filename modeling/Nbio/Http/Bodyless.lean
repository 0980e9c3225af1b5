import Nbio.Http.ContentLength

/-!
# Responses that may not have a body

The answer to a `HEAD` request and a response with the status 204 or 304 end with their head.  The
response writer never asks for the method, and asks for the status only to decide about chunking.
-/

namespace Nbio.Http

open Nbio.Go List

/-- A response that has to end with its head: by the method of the request or by the status. -/
def Bodyless (method : Bytes) (res : Response) : Prop :=
  method = ascii "HEAD" ∨ res.statusCode = 204 ∨ res.statusCode = 304

/-! ## Behind the head of a chunked response -/

namespace Exchange

variable {env : Env} {x y : Exchange} {t : List (Bytes × Bytes)}

namespace Streams

theorem call (h : ∀ n, env.connErr n = none) (hx : Streams t x) (op : Op) :
    Streams t (x.call env op) ∧ x.out <+: (x.call env op).out := by
  cases op with
  | flush =>
    obtain ⟨ho, hout, -⟩ := hx.opened env x.res.hasBody
    obtain ⟨hy, hout', -⟩ := Flush_streams h hx.conn hx.hijacked ho
    exact ⟨hy, by rw [← hout, ← hout']; exact prefix_rfl⟩
  | write data =>
    cases data with
    | nil =>
      exact ⟨hx, prefix_rfl⟩
    | cons c cs =>
      obtain ⟨ho, hout, -⟩ := hx.opened env true
      obtain ⟨hy, hgrows, -⟩ := write_streams h hx.conn (hx.chunked_prepared env) ho
        (cons_ne_nil c cs)
      rw [hout] at hgrows
      exact ⟨hy, hgrows⟩

theorem respond (h : ∀ n, env.connErr n = none) (hx : Streams t x) (ops : List Op) :
    ∃ rest, rest ≠ [] ∧ x.respond env ops = x.out ++ rest := by
  induction ops generalizing x with
  | nil =>
    obtain ⟨ho, hout, -⟩ := hx.opened env x.res.hasBody
    have hsent := flushResponse_streams h hx.conn hx.hijacked ho
    rw [hout] at hsent
    exact ⟨_, by simp [Response.lastChunk, ascii], hsent⟩
  | cons op ops ih =>
    obtain ⟨hy, mid, hmid⟩ := hx.call h op
    obtain ⟨rest, hne, hwire⟩ := ih hy
    refine ⟨mid ++ rest, by simp [hne], ?_⟩
    rw [respond_cons, hwire, ← hmid, append_assoc]

end Streams

end Exchange

namespace Response

variable {env : Env} {res : Response}

theorem Unused.respond_chunked (hres : res.Unused) (env : Env)
    (hchunked : (res.prepared env).chunked = true)
    (hok : ∀ n, env.connErr n = none) (ops : List Op) :
    ∃ rest, rest ≠ [] ∧ res.exchange.respond env ops = res.head env ops ++ rest := by
  have hbody : res.exchange.res.hasBody = false := hres.hasBody
  have hopened := Exchange.opened_streams (x := res.exchange) hres.conn hres.hijacked
    hres.headEncoded hres.bodyBuffer hchunked
  rw [head, hres.hasBody]
  induction ops with
  | nil =>
    obtain ⟨ho, hout, -⟩ := hopened res.exchange.res.hasBody
    have hsent := Exchange.flushResponse_streams hok hres.conn hres.hijacked ho
    rw [hout, hbody] at hsent
    exact ⟨_, by simp [lastChunk, ascii], hsent⟩
  | cons op ops ih =>
    cases op with
    | flush =>
      obtain ⟨ho, hout, -⟩ := hopened res.exchange.res.hasBody
      obtain ⟨hy, hout', -⟩ := Exchange.Flush_streams hok hres.conn hres.hijacked ho
      rw [hout, hbody] at hout'
      have hwire := hy.respond hok ops
      rw [hout'] at hwire
      exact hwire
    | write data =>
      cases data with
      | nil =>
        exact ih
      | cons c cs =>
        obtain ⟨ho, hout, -⟩ := hopened true
        obtain ⟨hy, ⟨mid, hmid⟩, -⟩ := Exchange.write_streams hok hres.conn hchunked ho
          (cons_ne_nil c cs)
        obtain ⟨rest, hne, hwire⟩ := hy.respond hok ops
        refine ⟨mid ++ rest, by simp [hne], ?_⟩
        rw [← append_assoc]
        rw [hout] at hmid
        exact hwire.trans (by rw [← hmid]; rfl)

end Response

/-! ## Data that is refused -/

/-- Data of which `Write` takes nothing as the first body data of a response. -/
def Response.Refuses (res : Response) (data : Bytes) : Prop :=
  data = [] ∨ (∃ e, res.declared = .error e) ∨ ∃ cl, res.Declares cl ∧ cl < data.length

namespace Sheet

variable {env : Env} {res : Response} {s : Sheet} {data : Bytes}

theorem call_body_refused (env : Env) (h : res.Refuses data) (hs : s.body = []) :
    (s.call env res (.write data)).body = [] := by
  by_cases hne : data = []
  · rw [hne]
    exact hs
  · rw [call_write env res hne]
    rcases h with h | ⟨e, he⟩ | ⟨cl, hcl, hlt⟩
    · exact absurd h hne
    · rw [write, he]
      exact hs
    · have hlong : cl < s.body.length + data.length := by
        omega
      rw [write_declared hcl, if_pos hlong]
      exact hs

theorem call_body_taken (env : Env) (h : ¬ res.Refuses data) (hs : s.body = []) :
    (s.call env res (.write data)).body = data := by
  have hne : data ≠ [] := fun hnil => h (.inl hnil)
  rw [call_write env res hne]
  cases hcl : res.declared with
  | error e => exact absurd (.inr (.inl ⟨e, hcl⟩)) h
  | ok cl =>
    by_cases hpos : 0 < cl
    · have hfits : ¬ cl < s.body.length + data.length := by
        rw [hs, length_nil]
        intro hlt
        exact h (.inr (.inr ⟨cl, ⟨hcl, hpos⟩, by omega⟩))
      rw [write_declared ⟨hcl, hpos⟩, if_neg hfits]
      rw [hs, nil_append]
    · rw [write_undeclared hcl hpos]
      rw [hs, nil_append]

theorem call_body_ne_nil (h : s.body ≠ []) (op : Op) : (s.call env res op).body ≠ [] := by
  cases op with
  | flush => exact h
  | write data =>
    cases data with
    | nil => exact h
    | cons c cs =>
      rw [call_write env res (cons_ne_nil c cs)]
      cases hcl : res.declared with
      | error e =>
        rw [write, hcl]
        exact h
      | ok cl =>
        by_cases hpos : 0 < cl
        · rw [write_declared ⟨hcl, hpos⟩]
          split
          · exact h
          · exact append_ne_nil_of_left_ne_nil h _
        · rw [write_undeclared hcl hpos]
          exact append_ne_nil_of_left_ne_nil h _

theorem run_body_ne_nil (h : s.body ≠ []) (ops : List Op) :
    (ops.foldl (·.call env res) s).body ≠ [] := by
  induction ops generalizing s with
  | nil => exact h
  | cons op ops ih => exact ih (call_body_ne_nil h op)

theorem run_body_eq_nil (env : Env) (hs : s.body = []) (ops : List Op) :
    (ops.foldl (·.call env res) s).body = [] ↔ ∀ d ∈ written ops, res.Refuses d := by
  induction ops generalizing s with
  | nil => simp [written, hs]
  | cons op ops ih =>
    rw [foldl_cons]
    cases op with
    | flush => exact ih hs
    | write data =>
      rw [written, forall_mem_cons]
      by_cases hd : res.Refuses data
      · rw [ih (call_body_refused env hd hs)]
        exact ⟨fun h => ⟨hd, h⟩, And.right⟩
      · have hne : (s.call env res (.write data)).body ≠ [] := by
          rw [call_body_taken env hd hs]
          exact fun hnil => hd (.inl hnil)
        exact iff_of_false (run_body_ne_nil hne ops) fun h => hd h.1

end Sheet

namespace Plain

variable {env : Env} {res : Response} {x : Exchange} {s : Sheet} {data : Bytes}

variable (h : Plain env res x s) (hres : res.IsPlain env)

include h hres

theorem write_refused (hdata : res.Refuses data) (hzero : x.res.bodyWritten = 0) :
    (x.write env data).2.res.bodyWritten = 0 := by
  by_cases hne : data = []
  · rw [Exchange.write, if_pos (.inl hne)]
    exact hzero
  · obtain ⟨n, -, herr, hrefuse, -, -⟩ := h.write_eq hres hne
    rcases hdata with hnil | ⟨e, he⟩ | ⟨cl, hcl, hlt⟩
    · exact absurd hnil hne
    · rw [herr e he]
      exact hzero
    · rw [hrefuse cl hcl (by omega)]
      exact hzero

theorem Flush_written :
    (x.Flush env).res.bodyWritten = x.res.bodyWritten := by
  have hno : ¬ (x.res.hijacked = true ∨ x.res.conn = false) := by
    simp [h.hijacked hres, h.conn hres]
  have hsettled : (x.res.writeHeader env 200).checkChunked = x.res := h.settled hres
  rw [Exchange.Flush, if_neg hno]
  simp only [hsettled]
  rw [(Exchange.flushBufs_sends env (x.eoncodeHead env)).2.1]
  exact Exchange.eoncodeHead_written env x

theorem run_refused (hzero : x.res.bodyWritten = 0) (ops : List Op)
    (hops : ∀ d ∈ written ops, res.Refuses d) :
    (ops.foldl (·.call env) x).res.bodyWritten = 0 := by
  induction ops generalizing x s with
  | nil => exact hzero
  | cons op ops ih =>
    cases op with
    | flush => exact ih (h.call hres .flush) ((h.Flush_written hres).trans hzero) hops
    | write data =>
      rw [written, forall_mem_cons] at hops
      exact ih (h.call hres (.write data)) (h.write_refused hres hops.1 hzero) hops.2

end Plain

/-! ## Bodyless responses -/

namespace Response

variable {env : Env} {res : Response}

/-- The head of a response on which these calls are made, whatever its framing. -/
def headFor (env : Env) (res : Response) (ops : List Op) : Bytes :=
  if (res.prepared env).chunked then res.head env ops else res.plainHead env ops

theorem Unused.chunked_eq (hres : res.Unused) (env : Env) :
    (res.prepared env).chunked =
      ((res.writeHeader env 200).asksChunked || (res.writeHeader env 200).fallsBackToChunking) := by
  obtain ⟨hchecked, hnot⟩ := res.writeHeader_framing env 200
  rw [hres.chunkChecked] at hchecked
  rw [hres.chunked] at hnot
  rw [prepared, checkChunked_first hchecked]
  simp only [hnot, Bool.or_false]

theorem prepared_refuses (hchunked : (res.prepared env).chunked = false) (data : Bytes) :
    (res.prepared env).Refuses data ↔ (res.writeHeader env 200).Refuses data := by
  have hdecl : (res.prepared env).declared = (res.writeHeader env 200).declared := by
    rw [declared, declared, prepared_header hchunked]
  simp only [Refuses, Declares, hdecl]

end Response

/-- Nothing is sent behind the head of a bodyless response exactly if `WriteHeader` leaves it with
no reason to be chunked, and with a declared length that refuses all the data. -/
theorem bodyless_empty_iff {env : Env} {method : Bytes} {res : Response}
    (_hbodyless : Bodyless method res) (hres : res.Unused) (ops : List Op) :
    (∀ connErr rest, res.exchange.respond { env with connErr := connErr } ops =
        res.headFor env ops ++ rest → rest = []) ↔
      (res.writeHeader env 200).asksChunked = false ∧
      (res.writeHeader env 200).fallsBackToChunking = false ∧
      ∀ d ∈ written ops, (res.writeHeader env 200).Refuses d := by
  rw [← and_assoc, ← Bool.or_eq_false_iff, ← hres.chunked_eq]
  cases hchunked : (res.prepared env).chunked with
  | true =>
    refine iff_of_false (fun hall => ?_) nofun
    obtain ⟨rest, hne, hwire⟩ := hres.respond_chunked { env with connErr := fun _ => none }
      hchunked (fun _ => rfl) ops
    refine hne (hall (fun _ => none) rest ?_)
    rw [hwire, Response.headFor, if_pos hchunked]
    rfl
  | false =>
    have hhead : res.headFor env ops = res.plainHead env ops := by
      rw [Response.headFor, if_neg (by simp [hchunked])]
    simp only [true_and, ← Response.prepared_refuses hchunked]
    rw [hhead, ← Sheet.run_body_eq_nil (s := Sheet.blank) env rfl]
    constructor
    · intro hall
      refine hall (fun _ => none) _ ?_
      exact hres.respond { env with connErr := fun _ => none } hchunked (fun _ => rfl) ops
    · intro hnil connErr rest hwire
      have hops := (Sheet.run_body_eq_nil env rfl ops).1 hnil
      have hle := hres.respond_le { env with connErr := connErr } hchunked ops
      rw [hwire, Response.plainHead_connErr env res ops connErr, length_append] at hle
      have hplain := hres.plain { env with connErr := connErr }
      have hzero := hplain.run_refused (hres.isPlain hchunked)
        (hplain.written_eq (.inl rfl)) ops hops
      exact length_eq_zero_iff.1 (by omega)

def noContent : Response :=
  { plainResponse with statusCode := 204, status := ascii "No Content" }

theorem noContent_unused : noContent.Unused := by
  constructor <;> rfl

theorem bodyless_empty_iff_unwritten :
    Bodyless (ascii "GET") noContent ∧ ∀ connErr rest,
      noContent.exchange.respond { crEnv with connErr := connErr } [.flush] =
        noContent.headFor crEnv [.flush] ++ rest → rest = [] := by
  have hbodyless : Bodyless (ascii "GET") noContent := .inr (.inl rfl)
  refine ⟨hbodyless, (bodyless_empty_iff hbodyless noContent_unused [.flush]).2 ?_⟩
  exact ⟨by decide +kernel, by decide +kernel, nofun⟩

/-- The answer to a `HEAD` request that the handler leaves alone has the last chunk behind its
head, and a response without content has the data that is written to it. -/
theorem bodyless_body_sent :
    Bodyless (ascii "HEAD") plainResponse ∧
    plainResponse.exchange.respond crEnv [] =
      plainResponse.headFor crEnv [] ++ ascii "0\r\n\r\n" ∧
    Bodyless (ascii "GET") noContent ∧
    noContent.exchange.respond crEnv [.write (ascii "ab")] =
      noContent.headFor crEnv [.write (ascii "ab")] ++ ascii "ab" :=
  ⟨.inl rfl, by decide +kernel, .inr (.inl rfl), by decide +kernel⟩

end Nbio.Http
