import Mathlib.Logic.Relation
import Nbio.Http.Segmentation

/-!
# The indices of the parser's loop stay within the data

The loop of `Parse` has two indices into the data: `start`, where the present piece begins, and the
cursor `i`.  Between two iterations they are a `Point`, and `Point.WithinData` holds at every point
that is reached: `start` is not behind `i`, `i` not behind the end, and in a body state `i` is
before the end of the piece that is waited for, so that the jump behind it goes forward.
-/

namespace Nbio.Http

open Nbio.Go Nbio.Lib

/-! ## Points of the loop -/

/-- Where the loop is between two iterations. -/
structure Point where
  p : Fields
  log : Log
  start : Nat
  i : Nat

def Point.next (proc : Processor) (data : Bytes) (x : Point) : Option Point :=
  if h : x.i < data.length then
    match iterate proc data x.p x.log x.start x.i data[x.i] with
    | .next p log start i => some ⟨p, log, start, i⟩
    | .leave _ => none
  else none

variable {proc : Processor}

theorem loop_next {data : Bytes} {x y : Point} (h : x.next proc data = some y) (fuel : Nat) :
    loop proc data (fuel + 1) x.p x.log x.start x.i =
      loop proc data fuel y.p y.log y.start y.i := by
  unfold Point.next at h
  rw [loop]
  by_cases hi : x.i < data.length
  · rw [dif_pos hi] at h ⊢
    cases hit : iterate proc data x.p x.log x.start x.i data[x.i] with
    | next p log start i =>
      rw [hit] at h
      cases h
      rfl
    | leave e =>
      rw [hit] at h
      cases h
  · rw [dif_neg hi] at h
    cases h

def Point.Reached (proc : Processor) (data : Bytes) (x y : Point) : Prop :=
  Relation.ReflTransGen (fun x y => x.next proc data = some y) x y

theorem Point.Reached.loop_eq {data : Bytes} {x y : Point} (h : x.Reached proc data y) :
    ∃ n, ∀ fuel,
      loop proc data (fuel + n) x.p x.log x.start x.i =
        loop proc data fuel y.p y.log y.start y.i := by
  induction h with
  | refl => exact ⟨0, fun fuel => rfl⟩
  | tail _ hnext ih =>
    obtain ⟨n, hn⟩ := ih
    refine ⟨n + 1, fun fuel => ?_⟩
    rw [show fuel + (n + 1) = fuel + 1 + n by omega, hn, loop_next hnext]

theorem iterate_cases {data : Bytes} {p p' : Fields} {log log' : Log} {start i start' i' : Nat}
    {c : UInt8} (h : iterate proc data p log start i c = .next p' log' start' i') :
    (∃ cl body, p.bodyLen = some cl ∧ 0 ≤ cl ∧ cl ≤ (data.length : Int) - start ∧
        p' = (endBody proc p (log ++ [.onBody body])).1 ∧ start' = start + cl.toNat ∧
        i' = start + cl.toNat) ∨
      ∃ s, p.bodyLen = none ∧ onByte proc p log (slice data start i) c = .go p' log' s ∧
        start' = s.apply start i ∧ i' = i + 1 := by
  unfold iterate at h
  split at h
  · cases h
  split at h
  · next cl hb =>
    unfold onBody at h
    by_cases hle : cl ≤ (data.length : Int) - start
    · rw [if_pos hle] at h
      by_cases hneg : cl < 0
      · rw [if_pos hneg] at h
        cases h
      · split at h
        · cases h
        · next body _ =>
          split at h
          · cases h
          · cases h
            exact .inl ⟨cl, body, hb, by omega, hle, rfl, rfl, rfl⟩
    · rw [if_neg hle] at h
      cases h
  · next hb =>
    split at h
    · next s hgo =>
      cases h
      exact .inr ⟨s, hb, hgo, rfl, rfl⟩
    · cases h
    · cases h

/-- What holds of the indices at a point, with what it needs of the fields. -/
structure Point.WithinData (data : Bytes) (x : Point) : Prop where
  inv : x.p.Inv
  live : x.p.state ≠ .close
  start_le : x.start ≤ x.i
  i_le : x.i ≤ data.length
  body : ∀ cl, x.p.bodyLen = some cl → 0 < cl ∧ x.i < x.start + cl

namespace Point.WithinData

variable {proc : Processor} {data : Bytes} {x y : Point}

theorem of_spec {p p' : Fields} {log : Log} {s : Start} {start i : Nat} (hs : ByteSpec proc p p' s)
    (hstart : start ≤ i) (hafter : s = .after → start = i) (hi : i ≤ data.length) :
    WithinData data ⟨p', log, start, i⟩ where
  inv := hs.inv
  live := hs.live
  start_le := hstart
  i_le := hi
  body := by
    intro cl hcl
    obtain ⟨hpos, heq⟩ := hs.enterBody cl hcl
    have := hafter heq
    dsimp only
    omega

theorem next (h : WithinData data x) (hnext : x.next proc data = some y) :
    WithinData data y ∧ x.i < y.i := by
  have hstart := h.start_le
  unfold Point.next at hnext
  split at hnext
  · next hi =>
    split at hnext
    · next p log start i hit =>
      cases hnext
      rcases iterate_cases hit with ⟨cl, body, hb, -, hle, rfl, rfl, rfl⟩ | ⟨s, hb, hgo, rfl, rfl⟩
      · obtain ⟨hpos, hlt⟩ := h.body cl hb
        refine ⟨of_spec (endBody_spec h.inv hb) le_rfl (fun _ => rfl) ?_, ?_⟩
        · omega
        · dsimp only
          omega
      · rw [slice_eq h.start_le h.i_le] at hgo
        have hs := (onByte_spec h.inv (State.isByte_of_bodyLen h.live hb)).elim hgo
        refine ⟨of_spec hs ?_ ?_ hi, Nat.lt_succ_self _⟩
        · cases s <;> simp only [Start.apply] <;> omega
        · rintro rfl
          rfl
    · cases hnext
  · cases hnext

theorem reached (h : WithinData data x) (hy : x.Reached proc data y) : WithinData data y := by
  induction hy with
  | refl => exact h
  | tail _ hnext ih => exact (ih.next hnext).1

end Point.WithinData

/-! ## Parsers between two calls -/

/-- A parser between two calls that waits for a piece of a body has cached less than that. -/
structure Parser.Sound (p : Parser) : Prop extends p.WF where
  short : ∀ cl, p.toFields.bodyLen = some cl → (p.cache.length : Int) < cl

namespace Parser

variable {proc : Processor} {readLimit : Int} {p : Parser} {log : Log} {data : Bytes}

theorem newParser_sound (isClient : Bool) : (newParser isClient).Sound where
  toWF := newParser_wf isClient
  short := by
    intro cl hcl
    exact (newParser_wf isClient).body cl hcl

theorem sound_of_uncached {k : Cfg} (hk : k.WF) {q : Parser} (hq : q.toFields = k.p)
    (hcached : q.bytesCached = none) : q.Sound where
  inv := by rw [hq]; exact hk.inv
  live := by rw [hq]; exact hk.live
  body cl hcl := by rw [hq] at hcl; exact (hk.body cl hcl).1
  start _ := hcached
  cached := by rw [hcached]; exact (Option.some_ne_none _).symm
  short cl hcl := by
    rw [hq] at hcl
    rw [cache, hcached]
    exact (hk.body cl hcl).1

theorem waiting_sound {k k' : Cfg} {xs left : Bytes} (hk : k.WF)
    (h : (scanner proc).run k xs = .ok (k', left))
    (hcloser : ¬ (k'.p.parserCloser = true ∧ left ≠ [])) : (k'.waiting left).Sound := by
  have hk' : k'.WF :=
    (scanner proc).run_inv (fun hk hn => Cfg.wf_step hk hn) hk h
  have hleft : k'.p.bodyLen = none → left = [] := by
    intro hb
    cases hpc : k'.p.parserCloser with
    | true => exact not_not.1 fun hne => hcloser ⟨hpc, hne⟩
    | false => exact Cfg.left_nil_of_run hpc hb h
  refine ⟨Cfg.wf_waiting hk' hleft, fun cl hcl => ?_⟩
  have hb : k'.p.bodyLen = some cl := hcl
  obtain ⟨hpos, hkept⟩ := hk'.body cl hb
  rw [Cfg.cache_waiting, hkept]
  rcases (scanner proc).run_waits h with rfl | hneed
  · exact hpos
  · have hne : left ≠ [] → (left.length : Int) < cl := by
      intro hne
      have hpc : k'.p.parserCloser = false := by
        rw [← Bool.not_eq_true]
        exact fun hpc => hcloser ⟨hpc, hne⟩
      obtain ⟨c, rest, rfl⟩ := List.exists_cons_of_ne_nil hne
      have hn : k'.next proc (c :: rest) = .need := hneed
      rw [Cfg.next_body hpc hb] at hn
      by_contra hge
      rw [Cfg.onBody_of_le ⟨hpos, by omega⟩] at hn
      split at hn <;> cases hn
    by_cases hnil : left = []
    · rw [hnil]
      exact hpos
    · exact hne hnil

theorem parse_closer (hp : p.WF) (hpc : p.parserCloser = true) (hdata : data ≠ [])
    (hlimit : ¬ p.Exceeds readLimit data) :
    p.parse proc readLimit log data = upgrader proc (p.loaded data) log (p.cache ++ data) 0 := by
  rw [parse, if_neg hp.live]
  refine (if_neg hdata).trans ((if_neg hlimit).trans ?_)
  simp only [show p.initReadDeadline.bytesCached.getD [] = p.cache from rfl, loaded_eq]
  exact if_pos hpc

/-- A call neither panics nor goes on for ever, and leaves a sound parser unless it returns an
error. -/
theorem parse_sound (hp : p.Sound) :
    (p.parse proc readLimit log data).recovered = false ∧
      ((p.parse proc readLimit log data).err = none →
        (p.parse proc readLimit log data).parser.Sound) := by
  have hk : (p.cfg log).1.WF := hp.toWF.cfg
  by_cases hdata : data = []
  · have hparse : p.parse proc readLimit log data =
        { parser := p.initReadDeadline, log, err := none, recovered := false } := by
      rw [parse, if_neg hp.live]
      exact if_pos hdata
    rw [hparse]
    exact ⟨rfl, fun _ => ⟨⟨hp.inv, hp.live, hp.body, hp.start, hp.cached⟩, hp.short⟩⟩
  by_cases hlimit : p.Exceeds readLimit data
  · have hparse : p.parse proc readLimit log data =
        { parser := p.initReadDeadline, log, err := some .tooLong, recovered := false } := by
      rw [parse, if_neg hp.live]
      exact (if_neg hdata).trans (if_pos hlimit)
    rw [hparse]
    exact ⟨rfl, fun h => absurd h (Option.some_ne_none _)⟩
  cases hpc : p.parserCloser with
  | true =>
    have hfields : p.toFields = (p.cfg log).1.p := cfg_p.symm
    rw [parse_closer hp.toWF hpc hdata hlimit]
    exact ⟨rfl, fun _ => sound_of_uncached hk hfields rfl⟩
  | false =>
    rw [parse_eq hp.toWF hpc hdata hlimit]
    cases hrun : (scanner proc).run (p.cfg log).1 ((p.cfg log).2 ++ data) with
    | error e =>
      have herr := Cfg.stop_run hk hrun
      obtain ⟨f, log', err⟩ := e
      cases err with
      | none => exact absurd rfl herr
      | some e => exact ⟨rfl, fun h => absurd h (Option.some_ne_none _)⟩
    | ok r =>
      obtain ⟨k', left⟩ := r
      rw [loopEnd]
      split
      · have hk' : k'.WF :=
          (scanner proc).run_inv (fun hk hn => Cfg.wf_step hk hn) hk hrun
        exact ⟨rfl, fun _ => sound_of_uncached hk' rfl rfl⟩
      · next hno =>
        have hsuf := Cfg.suffix_run hk hrun
        rw [← List.append_assoc, cfg_bytes] at hsuf
        have hkeep : { p.loaded data with toFields := k'.p }.keepLeft (p.cache ++ data)
            ((p.cache ++ data).length - (k'.kept.length + left.length)) = k'.waiting left :=
          keepLeft_eq rfl (loaded_cached hp.toWF) (by simp [hdata]) rfl hsuf
        rw [leave, hkeep]
        exact ⟨rfl, fun _ => waiting_sound hk hrun hno⟩

theorem feed_sound {segs : List Bytes} (hp : p.Sound)
    (h : (p.feed proc readLimit log segs).err = none) :
    (p.feed proc readLimit log segs).parser.Sound := by
  induction segs generalizing p log with
  | nil => exact hp
  | cons seg segs ih =>
    rw [feed] at h ⊢
    cases herr : (p.parse proc readLimit log seg).err with
    | some e =>
      simp only [herr] at h
      cases h
    | none =>
      simp only [herr] at h ⊢
      exact ih ((parse_sound hp).2 herr) h

def entry (p : Parser) (log : Log) : Point := ⟨p.toFields, log, 0, p.cache.length⟩

theorem Sound.entry (hp : p.Sound) (log : Log) (data : Bytes) :
    (p.entry log).WithinData (p.cache ++ data) where
  inv := hp.inv
  live := hp.live
  start_le := Nat.zero_le _
  i_le := by
    rw [List.length_append]
    exact Nat.le_add_right _ _
  body cl hcl := by
    refine ⟨hp.body cl hcl, ?_⟩
    have := hp.short cl hcl
    simpa [Parser.entry] using this

end Parser

/-- For every parser that calls of `Parse` without an error can leave, whatever the processor does,
and for every next input: the cache is nil or not empty, the call comes to its end without a panic,
and at every point of its loop the slices are within the data and the cursor moves on. -/
theorem parse_within_data (proc : Processor) (readLimit : Int) (isClient : Bool)
    (segs : List Bytes) (data : Bytes)
    (hok : ((newParser isClient).feed proc readLimit [] segs).err = none) :
    let r := (newParser isClient).feed proc readLimit [] segs
    let all := r.parser.cache ++ data
    r.parser.bytesCached ≠ some [] ∧
      (r.parser.parse proc readLimit r.log data).recovered = false ∧
      ∀ x, (r.parser.entry r.log).Reached proc all x →
        (∃ n, ∀ fuel, loop proc all (fuel + n) r.parser.toFields r.log 0 r.parser.cache.length =
          loop proc all fuel x.p x.log x.start x.i) ∧
        x.start ≤ x.i ∧ x.i ≤ all.length ∧
        (∀ cl, x.p.bodyLen = some cl → cl ≤ (all.length : Int) - x.start →
          0 ≤ cl ∧ x.start + cl ≤ all.length) ∧
        ∀ y, x.next proc all = some y → x.i < y.i := by
  have hs := Parser.feed_sound (Parser.newParser_sound isClient) hok
  refine ⟨hs.cached, (Parser.parse_sound hs).1, fun x hx => ?_⟩
  have hin := (hs.entry _ data).reached hx
  refine ⟨hx.loop_eq, hin.start_le, hin.i_le, fun cl hcl hle => ?_, fun y hy => (hin.next hy).2⟩
  have hpos := (hin.body cl hcl).1
  omega

/-- A body of which the first two bytes came with the head. -/
theorem parse_within_data_resumed :
    let r := (newParser false).feed .accept 0 []
      [ascii "PUT / HTTP/1.1\r\nContent-Length: 5\r\n\r\nab"]
    r.err = none ∧ r.parser.bytesCached = some (ascii "ab") ∧
      (r.parser.parse .accept 0 r.log (ascii "cde")).recovered = false :=
  ⟨rfl, rfl, (parse_within_data .accept 0 false
    [ascii "PUT / HTTP/1.1\r\nContent-Length: 5\r\n\r\nab"] (ascii "cde") rfl).2.1⟩

end Nbio.Http
