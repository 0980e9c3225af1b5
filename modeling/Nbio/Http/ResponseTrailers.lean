import Nbio.Http.Bodyless

/-!
# The trailers of a response

A handler announces trailers in the `Trailer` header, sets their headers, and writes its body.  The
names and the values are taken from the header when the head is encoded: by the first `Write` or
`Flush`, or when the handler has returned.  The lines behind the last chunk are those that were
taken then (`run_head`).
-/

namespace Nbio.Http

open Nbio.Go List

/-! ## Handlers -/

inductive HeaderOp where
  | announce (value : Bytes)
  | set (key value : Bytes)
  | writeHeader (statusCode : Int)
deriving DecidableEq, Repr

inductive TrailerOp where
  | edit (op : HeaderOp)
  | call (op : Op)
deriving DecidableEq, Repr

namespace TrailerOp

/-- Whether the head is encoded at the latest by this call, if the response is chunked. -/
def sends : TrailerOp → Bool
  | .edit _ => false
  | .call (.write data) => !data.isEmpty
  | .call .flush => true

def announced? : TrailerOp → Option Bytes
  | .edit (.announce value) => some value
  | _ => none

end TrailerOp

def Response.edit (env : Env) (res : Response) : HeaderOp → Response
  | .announce value => { res with header := res.header.add trailerHeader value }
  | .set key value => { res with header := res.header.set (canonicalHeaderKey key) value }
  | .writeHeader statusCode => res.writeHeader env statusCode

/-- What an operation that does not send does to the response. -/
def Response.prelude (env : Env) (res : Response) : TrailerOp → Response
  | .edit op => res.edit env op
  | .call _ => res

def Exchange.act (env : Env) (x : Exchange) : TrailerOp → Exchange
  | .edit op => { x with res := x.res.edit env op }
  | .call op => x.call env op

/-- A handler that announces trailers.  Once announced, a trailer stays announced. -/
structure TrailerHandler where
  ops : List TrailerOp
  keeps : ∀ key value, .edit (.set key value) ∈ ops → canonicalHeaderKey key ≠ trailerHeader

namespace TrailerHandler

def before (h : TrailerHandler) : List TrailerOp := h.ops.takeWhile (! ·.sends)

/-- The values of the `Trailer` header when the head is encoded. -/
def inTime (h : TrailerHandler) : List Bytes := h.before.filterMap TrailerOp.announced?

/-- The names that the handler announces: each value is a name or a list of names. -/
def names (h : TrailerHandler) : List Bytes :=
  (h.ops.filterMap TrailerOp.announced?).flatMap Fields.trailerNames

def run (h : TrailerHandler) (env : Env) (request : RequestInfo) : Exchange :=
  h.ops.foldl (·.act env) (newResponse request).exchange

def atHead (h : TrailerHandler) (env : Env) (request : RequestInfo) : Response :=
  (h.before.foldl (·.prelude env) (newResponse request)).prepared env

end TrailerHandler

/-- The lines that the final `flush` puts behind the last chunk; a response that is not chunked has
no such place. -/
def Exchange.trailerLines (env : Env) (x : Exchange) : List (Bytes × Bytes) :=
  let y := x.opened env x.res.hasBody
  if y.res.chunked then env.rangeTrailer y.res.trailer else []

/-- There is one line for each of the names that is set, with its value, and no line for anything
else. -/
def SendsTrailers (lines : List (Bytes × Bytes)) (names : List Bytes) (header : Header) : Prop :=
  (∀ n ∈ names, header.lacks n = false →
    (lines.filter fun l => canonicalHeaderKey l.1 = n).map Prod.snd = [header.get n]) ∧
  ∀ l ∈ lines, canonicalHeaderKey l.1 ∈ names

instance (lines : List (Bytes × Bytes)) (names : List Bytes) (header : Header) :
    Decidable (SendsTrailers lines names header) :=
  inferInstanceAs (Decidable (_ ∧ _))

/-! ## Announced names -/

theorem not_mem_of_mem_splitOn {s q : Bytes} (h : q ∈ s.splitOn 44) : 44 ∉ q := by
  unfold splitOn at h
  induction s generalizing q with
  | nil =>
    obtain rfl : q = [] := by simpa using h
    exact not_mem_nil
  | cons c s ih =>
    rw [splitOnP_cons_eq_if_modifyHead] at h
    by_cases hc : (c == 44) = true
    · rw [if_pos hc, mem_cons] at h
      rcases h with rfl | h
      · exact not_mem_nil
      · exact ih h
    · rw [if_neg hc] at h
      cases hs : s.splitOnP (· == 44) with
      | nil =>
        rw [hs] at h
        cases h
      | cons q' qs =>
        rw [hs] at h ih
        rcases mem_cons.1 h with rfl | h
        · rw [mem_cons]
          rintro (rfl | hmem)
          · exact hc rfl
          · exact ih (.head _) hmem
        · exact ih (.tail _ h)

theorem mem_of_mem_trimString {s : Bytes} {c : UInt8} (h : c ∈ trimString s) : c ∈ s :=
  (dropWhile_sublist _).subset ((List.rdropWhile_prefix _ _).subset h)

theorem mem_trailerNames {v n : Bytes} (h : n ∈ Fields.trailerNames v) :
    ∃ p, n = canonicalHeaderKey p ∧ p ≠ [] ∧ trimString p = p ∧ 44 ∉ p := by
  unfold Fields.trailerNames at h
  by_cases hnil : trimString v = []
  · rw [if_pos hnil] at h
    cases h
  rw [if_neg hnil] at h
  by_cases hcomma : (trimString v).contains 44 = true
  · rw [if_pos hcomma] at h
    obtain ⟨p, hp, rfl⟩ := mem_map.1 h
    obtain ⟨hp, hne⟩ := mem_filter.1 hp
    obtain ⟨q, hq, rfl⟩ := mem_map.1 hp
    exact ⟨_, rfl, of_decide_eq_true hne, trimString_trimString q,
      fun hmem => not_mem_of_mem_splitOn hq (mem_of_mem_trimString hmem)⟩
  · rw [if_neg hcomma, mem_singleton] at h
    exact ⟨_, h, hnil, trimString_trimString v, fun hmem => hcomma (contains_iff_mem.2 hmem)⟩

theorem trailerNames_of_mem {v w : Bytes} (h : canonicalHeaderKey v ∈ Fields.trailerNames w) :
    Fields.trailerNames v = [canonicalHeaderKey v] := by
  obtain ⟨p, hp, hne, htrim, hcomma⟩ := mem_trailerNames h
  suffices hv : v ≠ [] ∧ trimString v = v ∧ 44 ∉ v by
    unfold Fields.trailerNames
    rw [hv.2.1, if_neg hv.1, if_neg fun h => hv.2.2 (contains_iff_mem.1 h)]
  by_cases hvalid : v.all validHeaderFieldByte = true
  · refine ⟨?_, trimString_of_valid hvalid, fun hmem => ?_⟩
    · rintro rfl
      exact canonicalHeaderKey_ne_nil hne hp.symm
    · have := all_eq_true.1 hvalid 44 hmem
      revert this
      decide
  · rw [eq_of_canonicalHeaderKey_eq hp hvalid]
    exact ⟨hne, htrim, hcomma⟩

/-! ## The header in front of the head -/

namespace Header

theorem lookup_set (h : Header) (k v key : Bytes) :
    (h.set k v).lookup key = if key = k then some [v] else h.lookup key := by
  by_cases hkey : key = k
  · rw [hkey, if_pos rfl, lookup_set_self]
  · rw [if_neg hkey]
    unfold set
    cases hk : h.lookup k with
    | none =>
      rw [lookup_append_single, if_neg (Ne.symm hkey), Option.or_none]
    | some vs =>
      rw [lookup_map fun _ => [v], if_neg hkey]

def Canonical (h : Header) : Prop := ∀ key vs, h.lookup key = some vs → canonicalHeaderKey key = key

theorem Canonical.set {h : Header} (hh : h.Canonical) {k : Bytes} (hk : canonicalHeaderKey k = k)
    (v : Bytes) : (h.set k v).Canonical := by
  intro key vs hl
  rw [lookup_set] at hl
  by_cases hkey : key = k
  · rwa [hkey]
  · rw [if_neg hkey] at hl
    exact hh key vs hl

theorem Canonical.add {h : Header} (hh : h.Canonical) {k : Bytes} (hk : canonicalHeaderKey k = k)
    (v : Bytes) : (h.add k v).Canonical := by
  intro key vs hl
  rw [lookup_add] at hl
  by_cases hkey : key = k
  · rwa [hkey]
  · rw [if_neg hkey] at hl
    exact hh key vs hl

theorem Canonical.delete {h : Header} (hh : h.Canonical) (k : Bytes) : (h.delete k).Canonical := by
  intro key vs hl
  rw [lookup_delete] at hl
  by_cases hkey : key = k
  · rw [if_pos hkey] at hl
    cases hl
  · rw [if_neg hkey] at hl
    exact hh key vs hl

end Header

/-- A header with canonical keys and these values of `Trailer`. -/
structure Header.Announces (h : Header) (values : List Bytes) : Prop where
  canonical : h.Canonical
  values : (h.lookup trailerHeader).getD [] = values

namespace Header.Announces

variable {h : Header} {values : List Bytes}

theorem add (hh : h.Announces values) (v : Bytes) :
    (h.add trailerHeader v).Announces (values ++ [v]) where
  canonical := hh.canonical.add (by decide) v
  values := by rw [lookup_add, if_pos rfl, hh.values, Option.getD_some]

theorem set (hh : h.Announces values) {k : Bytes} (hcanon : canonicalHeaderKey k = k)
    (hk : k ≠ trailerHeader) (v : Bytes) : (h.set k v).Announces values where
  canonical := hh.canonical.set hcanon v
  values := by rw [lookup_set, if_neg (Ne.symm hk), hh.values]

theorem delete (hh : h.Announces values) {k : Bytes} (hk : k ≠ trailerHeader) :
    (h.delete k).Announces values where
  canonical := hh.canonical.delete k
  values := by rw [lookup_delete, if_neg (Ne.symm hk), hh.values]

end Header.Announces

namespace Response

variable {env : Env} {res : Response} {values : List Bytes}

theorem writeHeader_announces (h : res.header.Announces values) (n : Int) :
    (res.writeHeader env n).header.Announces values := by
  have hdel : (res.header.delete contentLengthHeader).Announces values := h.delete (by decide)
  unfold writeHeader
  dsimp only
  repeat' split
  all_goals first
    | exact h
    | exact hdel

theorem checkChunked_announces (h : res.header.Announces values) :
    res.checkChunked.header.Announces values := by
  unfold checkChunked
  dsimp only
  repeat' split
  · exact h
  · exact h.delete (by decide)
  · exact (h.set (by decide) (by decide) _).delete (by decide)
  · exact h

theorem trailers_eq (h : res.header.Announces values) :
    res.trailers = values.eraseDups.map fun k => (k, res.header.get k) := by
  unfold trailers trailerNames
  rw [h.values]
  refine map_congr_left fun k _ => ?_
  unfold Header.lacks
  cases hk : res.header.lookup k with
  | none => simp [Header.get, hk]
  | some vs =>
    rw [h.canonical k vs hk]
    cases vs with
    | nil => simp [Header.get, hk]
    | cons v vs => simp

theorem edit_eq (env : Env) (res : Response) (op : HeaderOp) : ∃ st code hd,
    res.edit env op = { res with status := st, statusCode := code, header := hd } := by
  cases op with
  | announce value => exact ⟨_, _, _, rfl⟩
  | set key value => exact ⟨_, _, _, rfl⟩
  | writeHeader statusCode => exact res.writeHeader_eq env statusCode

theorem Unused.edit (h : res.Unused) (env : Env) (op : HeaderOp) : (res.edit env op).Unused := by
  obtain ⟨st, code, hd, heq⟩ := res.edit_eq env op
  rw [heq]
  exact ⟨h.conn, h.hijacked, h.headEncoded, h.buffer, h.bodyBuffer, h.contentLen, h.bodyWritten,
    h.chunked, h.chunkChecked, h.hasBody⟩

theorem Unused.values_nil (h : res.Unused) (ha : res.header.Announces values)
    (hchunked : (res.prepared env).chunked = false) : values = [] := by
  rw [h.chunked_eq, Bool.or_eq_false_iff] at hchunked
  have hlacks := (Bool.or_eq_false_iff.1 hchunked.2).2
  have hw : (res.writeHeader env 200).header.Announces values := writeHeader_announces ha 200
  rw [← hw.values]
  simpa [Header.lacks] using hlacks

def framing (res : Response) : Bool × Bool × Bool × Bool :=
  (res.conn, res.hijacked, res.chunkChecked, res.chunked)

theorem prepared_framing (env : Env) (res : Response) :
    (res.prepared env).framing = (res.conn, res.hijacked, true, (res.prepared env).chunked) := by
  obtain ⟨st, code, hd, c, hp⟩ := res.prepared_eq env
  rw [hp]
  rfl

end Response

/-! ## Behind the head -/

namespace Exchange

variable {env : Env} {x : Exchange} {t : List (Bytes × Bytes)}

theorem Streams.edit (hx : Streams t x) (env : Env) (op : HeaderOp) :
    Streams t { x with res := x.res.edit env op } := by
  obtain ⟨st, code, hd, heq⟩ := x.res.edit_eq env op
  rw [heq]
  exact ⟨hx.conn, hx.hijacked, hx.chunkChecked, hx.chunked, hx.headEncoded, hx.trailer,
    hx.bodyBuffer⟩

theorem Streams.act (h : ∀ n, env.connErr n = none) (hx : Streams t x) (op : TrailerOp) :
    Streams t (x.act env op) := by
  cases op with
  | edit op => exact hx.edit env op
  | call op => exact (hx.call h op).1

def Unchunked (x : Exchange) : Prop := x.res.framing = (true, false, true, false)

theorem eoncodeHead_framing (env : Env) (x : Exchange) :
    (x.eoncodeHead env).res.framing = x.res.framing := by
  unfold eoncodeHead
  split
  · rfl
  · rfl

theorem appendBody_framing (env : Env) (x : Exchange) (cl : Int) (data : Bytes)
    (hb : x.res.buffer = none) : (x.appendBody env cl data).2.res.framing = x.res.framing := by
  have h₀ : Rebuffers x x := by
    unfold Rebuffers
    rw [← hb]
  have htakes : Takes env x (x.appendBody env cl data).2 data := appendBody_takes h₀ rfl
  rw [htakes.res]
  rfl

theorem writeBody_framing (env : Env) (x : Exchange) (cl : Int) (data : Bytes) :
    (x.writeBody env cl data).2.res.framing = x.res.framing := by
  unfold writeBody
  cases hb : x.res.buffer with
  | none => exact appendBody_framing env (x.setBuffer none) cl data rfl
  | some b =>
    dsimp only
    split
    · exact appendBody_framing env ((x.setBuffer none).setBodyBuffer (some b)) cl data rfl
    · have hres := (send_outcome env (x.setBuffer none) b).1
      generalize (x.setBuffer none).send env b = r at hres
      obtain ⟨⟨n, e⟩, y⟩ := r
      have hy : (y.free b).res = { x.res with buffer := none } := hres
      cases e with
      | some e =>
        rw [hy]
        rfl
      | none =>
        have happ := appendBody_framing env (y.free b) cl data (by rw [hy])
        rw [hy] at happ
        exact happ

theorem write_framing {data : Bytes} (hne : data ≠ []) (hconn : x.res.conn = true)
    (hchunked : (x.res.prepared env).chunked = false) :
    (x.write env data).2.res.framing = (x.res.prepared env).framing := by
  obtain ⟨r, n, hlen⟩ := (x.res.prepared env).contentLength_eq
  obtain ⟨hfail, hlong, hfits, hshort⟩ := write_cases hne hconn hchunked hlen
  cases r with
  | error e =>
    rw [hfail e rfl]
    rfl
  | ok cl =>
    by_cases hpos : 0 < cl
    · by_cases hlt : cl < (x.res.prepared env).bodyWritten + data.length
      · rw [hlong cl rfl hpos hlt]
        rfl
      · rw [hfits cl rfl hpos hlt, writeBody_framing, eoncodeHead_framing]
        rfl
    · obtain ⟨b, -, -, -, hres⟩ := appendBody_caches hpos env
        { x with res := { x.res.prepared env with hasBody := true, contentLen := n } } data
      rw [hshort cl rfl hpos, hres]
      rfl

theorem flushBuf_res (env : Env) (x : Exchange) (b : Option Buf) :
    (x.flushBuf env b).2.res = x.res := by
  cases b with
  | none => rfl
  | some b =>
    have hres := (send_outcome env x b).1
    unfold flushBuf
    dsimp only
    repeat' split
    · exact hres
    · exact hres
    · rfl

theorem flushBufs_framing (env : Env) (x : Exchange) :
    (x.flushBufs env).res.framing = x.res.framing := by
  unfold flushBufs
  dsimp only [setBodyBuffer]
  rw [flushBuf_res]
  dsimp only [setBuffer]
  rw [flushBuf_res]
  rfl

theorem Flush_framing (hconn : x.res.conn = true) (hhij : x.res.hijacked = false) :
    (x.Flush env).res.framing = (x.res.prepared env).framing := by
  have hno : ¬ (x.res.hijacked = true ∨ x.res.conn = false) := by simp [hconn, hhij]
  rw [Flush, if_neg hno, flushBufs_framing, eoncodeHead_framing]
  rfl

namespace Unchunked

variable (hx : x.Unchunked)

include hx

theorem conn : x.res.conn = true := congrArg Prod.fst hx

theorem hijacked : x.res.hijacked = false := congrArg (·.2.1) hx

theorem prepared (env : Env) :
    (x.res.prepared env).chunked = false ∧
      (x.res.prepared env).framing = (true, false, true, false) := by
  have hchunked : (x.res.prepared env).chunked = false :=
    (x.res.prepared_chunked env (congrArg (·.2.2.1) hx)).trans (congrArg (·.2.2.2) hx)
  refine ⟨hchunked, ?_⟩
  rw [Response.prepared_framing, hx.conn, hx.hijacked, hchunked]

theorem act (op : TrailerOp) : (x.act env op).Unchunked := by
  obtain ⟨hchunked, hframing⟩ := hx.prepared env
  cases op with
  | edit op =>
    obtain ⟨st, code, hd, heq⟩ := x.res.edit_eq env op
    unfold Unchunked Exchange.act
    dsimp only
    rw [heq]
    exact hx
  | call op =>
    cases op with
    | flush => exact (Flush_framing hx.conn hx.hijacked).trans hframing
    | write data =>
      cases data with
      | nil =>
        exact hx
      | cons c cs =>
        exact (write_framing (cons_ne_nil c cs) hx.conn hchunked).trans hframing

theorem opened (env : Env) (b : Bool) : (x.opened env b).Unchunked :=
  (eoncodeHead_framing env _).trans (hx.prepared env).2

end Unchunked

/-- The body is sent as it was decided with this head, and with its trailers. -/
inductive Follows (head : Response) (x : Exchange) : Prop where
  | chunked (hhead : head.chunked = true) (hx : Streams head.trailers x)
  | unchunked (hhead : head.chunked = false) (hx : x.Unchunked)

namespace Follows

variable {head : Response}

theorem conn (hx : Follows head x) : x.res.conn = true := by
  cases hx with
  | chunked _ hx => exact hx.conn
  | unchunked _ hx => exact hx.conn

theorem hijacked (hx : Follows head x) : x.res.hijacked = false := by
  cases hx with
  | chunked _ hx => exact hx.hijacked
  | unchunked _ hx => exact hx.hijacked

theorem opened (hx : Follows head x) (env : Env) (b : Bool) : Follows head (x.opened env b) := by
  cases hx with
  | chunked hhead hx => exact .chunked hhead (hx.opened env b).1
  | unchunked hhead hx => exact .unchunked hhead (hx.opened env b)

theorem act (h : ∀ n, env.connErr n = none) (hx : Follows head x) (op : TrailerOp) :
    Follows head (x.act env op) := by
  cases hx with
  | chunked hhead hx => exact .chunked hhead (hx.act h op)
  | unchunked hhead hx => exact .unchunked hhead (hx.act op)

theorem run (h : ∀ n, env.connErr n = none) (hx : Follows head x) (ops : List TrailerOp) :
    Follows head (ops.foldl (·.act env) x) := by
  induction ops generalizing x with
  | nil => exact hx
  | cons op ops ih => exact ih (hx.act h op)

end Follows

theorem opened_follows (hx : x.res.Unused) (env : Env) (b : Bool) :
    Follows (x.res.prepared env) (x.opened env b) := by
  cases hchunked : (x.res.prepared env).chunked with
  | true =>
    exact .chunked hchunked
      (opened_streams hx.conn hx.hijacked hx.headEncoded hx.bodyBuffer hchunked b).1
  | false =>
    refine .unchunked hchunked ((eoncodeHead_framing env _).trans ?_)
    refine (x.res.prepared_framing env).trans ?_
    rw [hx.conn, hx.hijacked, hchunked]

theorem sends_follows (h : ∀ n, env.connErr n = none) (hx : x.res.Unused) {op : TrailerOp}
    (hop : op.sends = true) : Follows (x.res.prepared env) (x.act env op) := by
  have hopened := opened_follows hx env
  cases op with
  | edit op => cases hop
  | call op =>
    cases op with
    | flush =>
      cases hopened x.res.hasBody with
      | chunked hhead ho =>
        exact .chunked hhead (Flush_streams h hx.conn hx.hijacked ho).1
      | unchunked hhead ho =>
        refine .unchunked hhead ((Flush_framing hx.conn hx.hijacked).trans ?_)
        exact (eoncodeHead_framing env _).symm.trans ho
    | write data =>
      have hne : data ≠ [] := by
        rintro rfl
        cases hop
      cases hopened true with
      | chunked hhead ho =>
        exact .chunked hhead (write_streams h hx.conn hhead ho hne).1
      | unchunked hhead ho =>
        refine .unchunked hhead ((write_framing hne hx.conn hhead).trans ?_)
        exact (eoncodeHead_framing env _).symm.trans ho

theorem act_of_not_sends (x : Exchange) {op : TrailerOp} (hop : op.sends = false) :
    x.act env op = { x with res := x.res.prelude env op } := by
  cases op with
  | edit op => rfl
  | call op =>
    cases op with
    | flush => cases hop
    | write data =>
      obtain rfl : data = [] := by simpa [TrailerOp.sends] using hop
      exact call_write_nil

/-- Whatever a handler does, its response goes out as it was decided when the head was encoded. -/
theorem run_head (h : ∀ n, env.connErr n = none) (hx : x.res.Unused) (ops : List TrailerOp) :
    let y := ops.foldl (·.act env) x
    let head := ((ops.takeWhile (! ·.sends)).foldl (·.prelude env) x.res).prepared env
    y.res.conn = true ∧ y.res.hijacked = false ∧ Follows head (y.opened env y.res.hasBody) := by
  induction ops generalizing x with
  | nil => exact ⟨hx.conn, hx.hijacked, opened_follows hx env x.res.hasBody⟩
  | cons op ops ih =>
    cases hop : op.sends with
    | false =>
      rw [foldl_cons, act_of_not_sends x hop, takeWhile_cons_of_pos (by rw [hop]; rfl)]
      refine ih ?_
      cases op with
      | edit op => exact hx.edit env op
      | call op => exact hx
    | true =>
      rw [takeWhile_cons_of_neg (by rw [hop]; decide)]
      have hend := (sends_follows h hx hop).run h ops
      exact ⟨hend.conn, hend.hijacked, hend.opened env _⟩

end Exchange

/-! ## The lines that are sent -/

theorem nodup_eraseDups (l : List Bytes) : l.eraseDups.Nodup := by
  induction hn : l.length using Nat.strong_induction_on generalizing l with
  | _ n ih =>
    cases l with
    | nil => exact nodup_nil
    | cons a l =>
      rw [eraseDups_cons, nodup_cons]
      refine ⟨fun hmem => ?_, ih _ ?_ _ rfl⟩
      · simp at hmem
      · rw [← hn]
        exact Nat.lt_succ_of_le (length_filter_le _ _)

theorem map_filter_eraseDups {α : Type*} (l : List Bytes) (p : Bytes → Bool)
    (f : Bytes → α) (a : α) : ((l.eraseDups.filter p).map f = [a]) ↔
      ∃ v ∈ l, p v = true ∧ (∀ w ∈ l, p w = true → w = v) ∧ f v = a := by
  constructor
  · intro h
    obtain ⟨v, hv, rfl⟩ := map_eq_singleton_iff.1 h
    have hmem : ∀ w, w ∈ l ∧ p w = true ↔ w = v := by
      intro w
      rw [← mem_eraseDups, ← mem_filter, hv, mem_singleton]
    exact ⟨v, ((hmem v).2 rfl).1, ((hmem v).2 rfl).2, fun w hw hp => (hmem w).1 ⟨hw, hp⟩, rfl⟩
  · rintro ⟨v, hv, hp, hone, rfl⟩
    have hperm : (l.eraseDups.filter p).Perm [v] := by
      refine (perm_ext_iff_of_nodup ((nodup_eraseDups l).filter _) (by simp)).2 fun w => ?_
      rw [mem_filter, mem_eraseDups, mem_singleton]
      exact ⟨fun hw => hone w hw.1 hw.2, fun hw => hw ▸ ⟨hv, hp⟩⟩
    rw [perm_singleton.1 hperm, map_singleton]

namespace TrailerHandler

variable {env : Env} (request : RequestInfo) (h : TrailerHandler)

theorem foldl_announces {res : Response} {values : List Bytes} (hres : res.header.Announces values)
    (env : Env) (ops : List TrailerOp)
    (hkeeps : ∀ key value, .edit (.set key value) ∈ ops → canonicalHeaderKey key ≠ trailerHeader) :
    (ops.foldl (·.prelude env) res).header.Announces
      (values ++ ops.filterMap TrailerOp.announced?) := by
  induction ops generalizing res values with
  | nil =>
    rw [filterMap_nil, append_nil]
    exact hres
  | cons op ops ih =>
    have hrest := fun key value hmem => hkeeps key value (mem_cons_of_mem op hmem)
    rcases op with (value | ⟨key, value⟩ | code) | op
    · have hsome : TrailerOp.announced? (.edit (.announce value)) = some value := rfl
      rw [filterMap_cons_some hsome, append_cons]
      exact ih (hres.add value) hrest
    · exact ih (hres.set (canonicalHeaderKey_canonicalHeaderKey key)
        (hkeeps key value (.head _)) value) hrest
    · exact ih (Response.writeHeader_announces hres code) hrest
    · exact ih hres hrest

theorem foldl_unused {res : Response} (hres : res.Unused) (env : Env) (ops : List TrailerOp) :
    (ops.foldl (·.prelude env) res).Unused := by
  induction ops generalizing res with
  | nil => exact hres
  | cons op ops ih =>
    cases op with
    | edit op => exact ih (hres.edit env op)
    | call op => exact ih hres

theorem newResponse_unused : (newResponse request).Unused :=
  ⟨rfl, rfl, rfl, rfl, rfl, rfl, rfl, rfl, rfl, rfl⟩

theorem before_announces :
    (h.before.foldl (·.prelude env) (newResponse request)).header.Announces h.inTime := by
  have hnil : (newResponse request).header.Announces [] := ⟨nofun, rfl⟩
  exact foldl_announces hnil env h.before fun key value hmem =>
    h.keeps key value ((takeWhile_sublist _).subset hmem)

theorem run_follows (hok : ∀ n, env.connErr n = none) :
    (h.run env request).res.conn = true ∧ (h.run env request).res.hijacked = false ∧
      Exchange.Follows (h.atHead env request)
        ((h.run env request).opened env (h.run env request).res.hasBody) :=
  Exchange.run_head hok (newResponse_unused request) h.ops

/-- The lines are those of the values in time, each with what the header held then. -/
theorem trailerLines_perm (hok : ∀ n, env.connErr n = none) :
    ((h.run env request).trailerLines env).Perm
      (h.inTime.eraseDups.map fun k => (k, (h.atHead env request).header.get k)) := by
  have hbefore : (h.before.foldl (·.prelude env) (newResponse request)).header.Announces h.inTime :=
    h.before_announces request
  have hhead : (h.atHead env request).header.Announces h.inTime :=
    Response.checkChunked_announces (Response.writeHeader_announces hbefore 200)
  obtain ⟨-, -, hfollows⟩ := h.run_follows request hok
  rw [← Response.trailers_eq hhead]
  unfold Exchange.trailerLines
  cases hfollows with
  | chunked _ hx =>
    rw [if_pos hx.chunked, hx.trailer]
    exact env.rangeTrailer_perm _
  | unchunked hchunked hx =>
    have hunused := foldl_unused (newResponse_unused request) env h.before
    have hno :
        ¬ ((h.run env request).opened env (h.run env request).res.hasBody).res.chunked = true :=
      fun hyes => Bool.false_ne_true ((congrArg (·.2.2.2) hx).symm.trans hyes)
    rw [if_neg hno, Response.trailers_eq hhead, hunused.values_nil hbefore hchunked]
    exact .nil

variable {lines : List (Bytes × Bytes)} {header : Header}

theorem lines_announced_iff
    (hperm : lines.Perm (h.inTime.eraseDups.map fun k => (k, header.get k))) :
    (∀ l ∈ lines, canonicalHeaderKey l.1 ∈ h.names) ↔
      ∀ v ∈ h.inTime, Fields.trailerNames v = [canonicalHeaderKey v] := by
  constructor
  · intro hall v hv
    have hmem : (v, header.get v) ∈ lines :=
      hperm.mem_iff.2 (mem_map.2 ⟨v, mem_eraseDups.2 hv, rfl⟩)
    obtain ⟨w, -, hw⟩ := mem_flatMap.1 (hall _ hmem)
    exact trailerNames_of_mem hw
  · intro hall l hl
    obtain ⟨v, hv, rfl⟩ := mem_map.1 (hperm.mem_iff.1 hl)
    have hv := mem_eraseDups.1 hv
    have hops : v ∈ h.ops.filterMap TrailerOp.announced? :=
      ((takeWhile_sublist _).filterMap _).subset hv
    refine mem_flatMap.2 ⟨v, hops, ?_⟩
    rw [hall v hv]
    exact mem_singleton_self _

theorem line_eq_iff (hperm : lines.Perm (h.inTime.eraseDups.map fun k => (k, header.get k)))
    (n value : Bytes) :
    (lines.filter fun l => canonicalHeaderKey l.1 = n).map Prod.snd = [value] ↔
      ∃ v ∈ h.inTime, canonicalHeaderKey v = n ∧
        (∀ w ∈ h.inTime, canonicalHeaderKey w = n → w = v) ∧ header.get v = value := by
  have hvalues : ((lines.filter fun l => canonicalHeaderKey l.1 = n).map Prod.snd).Perm
      ((h.inTime.eraseDups.filter fun k => canonicalHeaderKey k = n).map header.get) := by
    refine ((hperm.filter _).map _).trans (.of_eq ?_)
    rw [filter_map, map_map]
    rfl
  have hone := map_filter_eraseDups h.inTime (canonicalHeaderKey · = n) header.get value
  simp only [decide_eq_true_eq] at hone
  rw [← hone]
  constructor
  · intro heq
    rw [heq] at hvalues
    exact perm_singleton.1 hvalues.symm
  · intro heq
    rw [heq] at hvalues
    exact perm_singleton.1 hvalues

theorem flushResponse_trailerLines (hok : ∀ n, env.connErr n = none)
    (hchunked : (h.atHead env request).chunked = true) :
    ((h.run env request).flushResponse env).2.sent.flatten =
      ((h.run env request).opened env (h.run env request).res.hasBody).out ++ ascii "0\r\n" ++
        ((h.run env request).trailerLines env).flatMap
          (fun l => l.1 ++ ascii ": " ++ l.2 ++ crlf) ++ crlf := by
  obtain ⟨hconn, hhij, hfollows⟩ := h.run_follows request hok
  cases hfollows with
  | unchunked hno _ => exact absurd (hno.symm.trans hchunked) Bool.false_ne_true
  | chunked _ hx =>
    have hlines : (h.run env request).trailerLines env =
        env.rangeTrailer (h.atHead env request).trailers := by
      unfold Exchange.trailerLines
      rw [if_pos hx.chunked, hx.trailer]
    have hcolon : ascii ": " = [COLON, SP] := rfl
    rw [Exchange.flushResponse_streams hok hconn hhij hx, hlines, Response.lastChunk,
      Response.trailerSection, flatMap, hcolon, append_assoc, append_assoc]

end TrailerHandler

/-- The trailers of a chunked response stand behind its last chunk, and they are right exactly if,
when the head is encoded, each value of the `Trailer` header is a single name, and of each announced
name that the handler leaves set one spelling has been announced, under which the header holds the
value that it is left with. -/
theorem trailers_sent_iff {env : Env} (hok : ∀ n, env.connErr n = none) (request : RequestInfo)
    (h : TrailerHandler) :
    let x := h.run env request
    ((h.atHead env request).chunked = true → (x.flushResponse env).2.sent.flatten =
      (x.opened env x.res.hasBody).out ++ ascii "0\r\n" ++
        (x.trailerLines env).flatMap (fun l => l.1 ++ ascii ": " ++ l.2 ++ crlf) ++ crlf) ∧
    (SendsTrailers (x.trailerLines env) h.names x.res.header ↔
      (∀ v ∈ h.inTime, Fields.trailerNames v = [canonicalHeaderKey v]) ∧
      ∀ n ∈ h.names, x.res.header.lacks n = false →
        ∃ v ∈ h.inTime, canonicalHeaderKey v = n ∧
          (∀ w ∈ h.inTime, canonicalHeaderKey w = n → w = v) ∧
          (h.atHead env request).header.get v = x.res.header.get n) := by
  refine ⟨h.flushResponse_trailerLines request hok, ?_⟩
  have hperm := h.trailerLines_perm request hok
  unfold SendsTrailers
  rw [and_comm]
  refine and_congr (h.lines_announced_iff hperm) ?_
  exact forall₂_congr fun n _ => imp_congr_right fun _ => h.line_eq_iff hperm n _

def earlyHandler : TrailerHandler where
  ops := [.edit (.announce (ascii "Md5")), .edit (.set (ascii "Md5") (ascii "x")),
    .call (.write (ascii "hi")), .call .flush]
  keeps := by
    rintro key value (_ | ⟨_, _ | ⟨_, _ | ⟨_, _ | ⟨_, hnil⟩⟩⟩⟩)
    · decide
    · cases hnil

theorem trailers_sent_early :
    SendsTrailers ((earlyHandler.run crEnv plainResponse.request).trailerLines crEnv)
      [ascii "Md5"] (earlyHandler.run crEnv plainResponse.request).res.header :=
  (trailers_sent_iff (fun _ => rfl) plainResponse.request earlyHandler).2.2
    ⟨by decide, by decide +kernel⟩

/-- A handler that sets its trailer when it has written what the trailer is about. -/
def lateHandler : TrailerHandler where
  ops := [.edit (.announce (ascii "Md5")), .call (.write (ascii "hi")),
    .edit (.set (ascii "Md5") (ascii "x"))]
  keeps := by
    rintro key value (_ | ⟨_, _ | ⟨_, _ | ⟨_, hnil⟩⟩⟩)
    · decide
    · cases hnil

def listHandler : TrailerHandler where
  ops := [.edit (.announce (ascii "Md5, Size")), .edit (.set (ascii "Md5") (ascii "x")),
    .call (.write (ascii "hi"))]
  keeps := by
    rintro key value (_ | ⟨_, _ | ⟨_, _ | ⟨_, hnil⟩⟩⟩)
    · decide
    · cases hnil

/-- The value that is set behind the first write is lost, and a list is sent as one name. -/
theorem trailers_lost :
    (let x := lateHandler.run crEnv plainResponse.request
     x.trailerLines crEnv = [(ascii "Md5", [])] ∧ x.res.header.get (ascii "Md5") = ascii "x" ∧
       ¬ SendsTrailers (x.trailerLines crEnv) lateHandler.names x.res.header) ∧
    (let x := listHandler.run crEnv plainResponse.request
     x.trailerLines crEnv = [(ascii "Md5, Size", [])] ∧
       listHandler.names = [ascii "Md5", ascii "Size"] ∧
       ¬ SendsTrailers (x.trailerLines crEnv) listHandler.names x.res.header) := by
  decide +kernel

end Nbio.Http
