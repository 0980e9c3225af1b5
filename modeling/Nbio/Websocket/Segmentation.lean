import Nbio.Lib.Scanner
import Nbio.Websocket.Conn

/-!
# How a WebSocket stream is cut does not matter

The parser of a connection is a scanner over the stream: a frame is taken as soon as all of it
is there, and whatever `nextFrame` decides earlier, from a head alone, it decides no differently
when more has been read.  This needs an invariant: with a limit set, the message put together so
far is within it, so that a head whose extended length is still missing is never too large.
-/

namespace Nbio.Websocket

open Nbio.Go Nbio.Lib List

/-! ## The invariant of a message -/

def Assembly.len (a : Assembly) : Nat := (a.message.map length).getD 0

/-- The message is a slice, and within the limit if there is one. -/
structure Assembly.WF (o : Options) (a : Assembly) : Prop where
  lt : a.len < 2 ^ 63
  le : 0 < o.messageLengthLimit → a.len ≤ o.messageLengthLimit

variable {o : Options} {a a' : Assembly} {xs : Bytes} {f : Frame}

theorem wrap64_of_lt {n : Int} (h₀ : -2 ^ 63 ≤ n) (h : n < 2 ^ 63) : wrap64 n = n := by
  unfold wrap64
  omega

theorem wrap64_eq_of_nonneg {n : Int} (h₀ : 0 ≤ n) (h : n < 2 ^ 64) (hw : 0 ≤ wrap64 n) :
    wrap64 n = n := by
  unfold wrap64 at hw ⊢
  omega

/-! ## What a frame is -/

theorem bodyLength_spec {p : UInt8} {bodyLen headLen : Int}
    (h : bodyLength p xs = .ok (bodyLen, headLen)) :
    (bodyLen = -1 ∨ 0 ≤ bodyLen) ∧ bodyLen < 2 ^ 63 ∧ 2 ≤ headLen ∧ headLen ≤ 10 := by
  unfold bodyLength at h
  split at h
  · split at h
    · cases h
      have hlt := beUint_lt ((xs.drop 2).take 2)
      have hlen : ((xs.drop 2).take 2).length ≤ 2 := length_take_le _ _
      have hpow := Nat.pow_le_pow_right (show 0 < 256 by decide) hlen
      exact ⟨.inr (by omega), by omega, by decide, by decide⟩
    · cases h
      exact ⟨.inl rfl, by decide, by decide, by decide⟩
  · split at h
    · split at h
      · dsimp only at h
        split at h
        · cases h
        · next hnn =>
          obtain ⟨hbody, hhead⟩ := Prod.mk.inj (Except.ok.inj h)
          have hlt : wrap64 (beUint ((xs.drop 2).take 8)) < 2 ^ 63 := by
            unfold wrap64
            omega
          rw [hbody] at hnn hlt
          exact ⟨.inr (by omega), hlt, by omega, by omega⟩
      · cases h
        exact ⟨.inl rfl, by decide, by decide, by decide⟩
    · cases h
      have hp : p.toNat < 256 := p.toNat_lt
      exact ⟨.inr (by omega), by omega, by decide, by decide⟩

theorem takeFrame_spec {e : Bool} {b₀ b₁ : UInt8} {headLen bodyLen : Int}
    (hb : 0 ≤ bodyLen ∧ bodyLen < 2 ^ 63) (hh : 2 ≤ headLen ∧ headLen ≤ 10)
    (h : takeFrame o e b₀ b₁ headLen bodyLen xs = .ok (some f)) :
    2 ≤ f.total ∧ f.total ≤ xs.length ∧ (f.body.length : Int) = bodyLen := by
  unfold takeFrame at h
  dsimp only at h
  generalize hhead : (if (b₁ &&& 128 != 0) = true then headLen + 4 else headLen) = head at h
  split at h
  · next hle =>
    split at h
    · cases h
    · next hlt =>
      have htotal : wrap64 (head + bodyLen) = head + bodyLen :=
        wrap64_eq_of_nonneg (by omega) (by omega) (by omega)
      rw [htotal] at h hle
      split at h
      · cases h
      · cases h
        refine ⟨by dsimp only; omega, hle, ?_⟩
        have hbody : ((xs.drop head.toNat).take (head + bodyLen - head).toNat).length =
            bodyLen.toNat := by
          rw [length_take, length_drop]
          omega
        split
        · next hmasked =>
          rw [if_pos hmasked] at hhead
          have hkey : ((xs.drop (head - 4).toNat).take 4).length = 4 := by
            rw [length_take, length_drop]
            omega
          rw [length_maskXOR _ hkey]
          omega
        · rw [hbody]
          omega
  · cases h

theorem nextFrame_spec (h : nextFrame o a xs = .ok (some f)) :
    2 ≤ f.total ∧ f.total ≤ xs.length ∧
      isMessageTooLarge o (wrap64 ((a.len : Int) + f.body.length)) = false ∧
      f.body.length < 2 ^ 63 := by
  unfold nextFrame at h
  split at h
  · next b₀ b₁ rest =>
    cases hlen : bodyLength (b₁ &&& 0x7F) (b₀ :: b₁ :: rest) with
    | error e => rw [hlen] at h; cases h
    | ok r =>
      obtain ⟨-, hlt, hhead⟩ := bodyLength_spec hlen
      rw [hlen] at h
      dsimp only at h
      split at h
      · cases h
      next hlarge =>
      split at h
      · cases h
      split at h
      · next hnn =>
        obtain ⟨htotal, hle, hbody⟩ := takeFrame_spec ⟨hnn, hlt⟩ hhead h
        refine ⟨htotal, hle, ?_, by omega⟩
        rw [hbody]
        exact Bool.not_eq_true _ ▸ hlarge
      · cases h
  · cases h

theorem appendMessage_spec {body : Bytes} {message : Option Bytes} (ha : a.WF o)
    (hlarge : isMessageTooLarge o (wrap64 ((a.len : Int) + body.length)) = false)
    (hbody : body.length < 2 ^ 63) (h : appendMessage a.message body = .ok message) :
    Assembly.WF o { a with message := message } := by
  have hlen : (message.map length).getD 0 = a.len + body.length ∧
      a.len + body.length < 2 ^ 63 := by
    unfold appendMessage at h
    unfold Assembly.len
    split at h
    · next hnil =>
      cases h
      rw [hnil]
      exact ⟨rfl, ha.lt⟩
    · cases hm : a.message with
      | none =>
        rw [hm] at h
        cases h
        exact ⟨(Nat.zero_add _).symm, by simpa using hbody⟩
      | some m =>
        rw [hm] at h
        dsimp only at h
        split at h
        · next hlt =>
          cases h
          exact ⟨length_append, hlt⟩
        · cases h
  refine ⟨by rw [Assembly.len, hlen.1]; exact hlen.2, fun hpos => ?_⟩
  rw [wrap64_of_lt (by omega) (by omega), isMessageTooLarge] at hlarge
  rw [Assembly.len, hlen.1]
  simp only [hpos, decide_true, Bool.true_and, decide_eq_false_iff_not] at hlarge
  omega

def Assembly.idle : Assembly :=
  { expectingFragments := false, compress := false, msgType := 0, message := none }

theorem Assembly.idle_wf (o : Options) : Assembly.idle.WF o :=
  ⟨by decide, fun hpos => Int.le_of_lt hpos⟩

theorem onFrame_wf {calls : Log} (ha : a.WF o)
    (hlarge : isMessageTooLarge o (wrap64 ((a.len : Int) + f.body.length)) = false)
    (hbody : f.body.length < 2 ^ 63) (h : onFrame o a f = .ok (a', calls)) : a'.WF o := by
  unfold onFrame at h
  split at h
  · unfold onDataFrame at h
    dsimp only at h
    generalize ha₁ : (if a.msgType = 0 then
      { a with msgType := f.opcode, compress := f.res1 } else a) = a₁ at h
    have hmessage : a₁.message = a.message := by
      rw [← ha₁]
      split <;> rfl
    have hlen : a₁.len = a.len := by rw [Assembly.len, Assembly.len, hmessage]
    have hwf : a₁.WF o := ⟨by rw [hlen]; exact ha.lt, by rw [hlen]; exact ha.le⟩
    split at h
    · cases happ : appendMessage a₁.message f.body with
      | error e => rw [happ] at h; cases h
      | ok message =>
        rw [happ] at h
        dsimp only at h
        split at h
        · cases hw : wholeMessage o a₁.compress message with
          | error e => rw [hw] at h; cases h
          | ok whole =>
            rw [hw] at h
            cases h
            exact Assembly.idle_wf o
        · cases h
          rw [← hlen] at hlarge
          have hwf' := appendMessage_spec hwf hlarge hbody happ
          exact ⟨hwf'.lt, hwf'.le⟩
    · cases h
      exact hwf
  · split at h
    · cases h
      exact ha
    · cases h

/-! ## More input changes nothing -/

theorem bodyLength_append (p : UInt8) (xs ys : Bytes) :
    bodyLength p (xs ++ ys) = bodyLength p xs ∨ bodyLength p xs = .ok (-1, 2) := by
  unfold bodyLength
  split
  · by_cases hlen : 4 ≤ xs.length
    · left
      rw [if_pos hlen, if_pos (by rw [length_append]; omega), drop_append_of_le_length (by omega),
        take_append_of_le_length (by rw [length_drop]; omega)]
    · right
      rw [if_neg hlen]
  · split
    · by_cases hlen : 10 ≤ xs.length
      · left
        rw [if_pos hlen, if_pos (by rw [length_append]; omega), drop_append_of_le_length (by omega),
          take_append_of_le_length (by rw [length_drop]; omega)]
      · right
        rw [if_neg hlen]
    · exact .inl rfl

theorem takeFrame_append {e : Bool} {b₀ b₁ : UInt8} {headLen bodyLen : Int} (xs ys : Bytes)
    (hh : 2 ≤ headLen) (h : takeFrame o e b₀ b₁ headLen bodyLen xs ≠ .ok none) :
    takeFrame o e b₀ b₁ headLen bodyLen (xs ++ ys) =
      takeFrame o e b₀ b₁ headLen bodyLen xs := by
  unfold takeFrame at h ⊢
  dsimp only at h ⊢
  generalize hhead : (if (b₁ &&& 128 != 0) = true then headLen + 4 else headLen) = head at h ⊢
  generalize wrap64 (head + bodyLen) = total at h ⊢
  by_cases hle : total ≤ xs.length
  · rw [if_pos (by rw [length_append]; omega)]
    split
    · rfl
    · next hlt =>
      have hbody : ((xs ++ ys).drop head.toNat).take (total - head).toNat =
          (xs.drop head.toNat).take (total - head).toNat := by
        rw [drop_append_of_le_length (by omega),
          take_append_of_le_length (by rw [length_drop]; omega)]
      have hkey : ((xs ++ ys).drop (head - 4).toNat).take 4 =
          (xs.drop (head - 4).toNat).take 4 ∨ (b₁ &&& 128 != 0) = false := by
        cases hm : b₁ &&& 128 != 0 with
        | false => exact .inr rfl
        | true =>
          left
          rw [hm, if_pos rfl] at hhead
          rw [drop_append_of_le_length (by omega),
            take_append_of_le_length (by rw [length_drop]; omega)]
      rw [hbody]
      rcases hkey with hkey | hm
      · rw [hkey]
      · simp only [hm, Bool.false_eq_true, if_false]
  · rw [if_neg hle] at h
    exact absurd rfl h

theorem nextFrame_append (ha : a.WF o) (xs ys : Bytes) (h : nextFrame o a xs ≠ .ok none) :
    nextFrame o a (xs ++ ys) = nextFrame o a xs := by
  unfold nextFrame at h
  split at h
  · next b₀ b₁ rest =>
    rw [cons_append, cons_append, nextFrame, nextFrame]
    rcases bodyLength_append (b₁ &&& 0x7F) (b₀ :: b₁ :: rest) ys with heq | hshort
    · rw [cons_append, cons_append] at heq
      rw [heq]
      cases hlen : bodyLength (b₁ &&& 0x7F) (b₀ :: b₁ :: rest) with
      | error e => rfl
      | ok r =>
        obtain ⟨-, -, hhead, -⟩ := bodyLength_spec hlen
        rw [hlen] at h
        dsimp only at h ⊢
        split
        · rfl
        next hlarge =>
        rw [if_neg hlarge] at h
        split
        · rfl
        next hcontrol =>
        rw [if_neg hcontrol] at h
        split
        · next hnn =>
          rw [if_pos hnn] at h
          exact takeFrame_append (b₀ :: b₁ :: rest) ys hhead h
        · rfl
    · -- the length is not there yet, and the message is not too large without it
      rw [hshort] at h
      have hlarge : isMessageTooLarge o (wrap64 ((a.len : Int) + -1)) = false := by
        have hlt := ha.lt
        rw [wrap64_of_lt (by omega) (by omega), isMessageTooLarge]
        by_cases hpos : 0 < o.messageLengthLimit
        · have hle := ha.le hpos
          have hno : ¬ o.messageLengthLimit < (a.len : Int) + -1 := by omega
          rw [decide_eq_false hno, Bool.and_false]
        · rw [decide_eq_false hpos, Bool.false_and]
      unfold Assembly.len at hlarge
      dsimp only at h
      rw [hlarge] at h
      exact absurd rfl h
  · exact absurd rfl h

/-! ## The parser as a scanner -/

/-- The message put together so far and the calls made. -/
structure Cfg extends Assembly where
  log : Log

def Cfg.take (o : Options) (k : Cfg) (f : Frame) : Verdict Cfg (Log × Err) :=
  match onFrame o k.toAssembly f with
  | .error e => .stop (k.log ++ closeNotice e, e)
  | .ok (a, calls) => .step (f.total.toNat - 1) { toAssembly := a, log := k.log ++ calls }

def Cfg.next (o : Options) (k : Cfg) (xs : Bytes) : Verdict Cfg (Log × Err) :=
  match nextFrame o k.toAssembly xs with
  | .error e => .stop (k.log ++ closeNotice e, e)
  | .ok none => .need
  | .ok (some f) => k.take o f

theorem Cfg.next_step {k k' : Cfg} {n : Nat} (h : k.next o xs = .step n k') :
    ∃ f calls, nextFrame o k.toAssembly xs = .ok (some f) ∧
      onFrame o k.toAssembly f = .ok (k'.toAssembly, calls) ∧ n = f.total.toNat - 1 := by
  unfold Cfg.next at h
  cases hf : nextFrame o k.toAssembly xs with
  | error e => rw [hf] at h; cases h
  | ok r =>
    cases r with
    | none => rw [hf] at h; cases h
    | some f =>
      rw [hf] at h
      dsimp only [Cfg.take] at h
      cases hon : onFrame o k.toAssembly f with
      | error e => rw [hon] at h; cases h
      | ok r =>
        obtain ⟨a, calls⟩ := r
        rw [hon] at h
        cases h
        exact ⟨f, calls, rfl, hon, rfl⟩

def scanner (o : Options) : Scanner UInt8 Cfg (Log × Err) where
  next := Cfg.next o
  Valid := fun k => k.toAssembly.WF o
  valid := by
    intro k xs n k' hk h
    obtain ⟨f, calls, hf, hon, -⟩ := Cfg.next_step h
    obtain ⟨-, -, hlarge, hbody⟩ := nextFrame_spec hf
    exact onFrame_wf hk hlarge hbody hon
  within := by
    intro k xs n k' h
    obtain ⟨f, calls, hf, -, hn⟩ := Cfg.next_step h
    obtain ⟨htwo, hle, -⟩ := nextFrame_spec hf
    omega
  stable := by
    intro k xs ys hk h
    have hne : nextFrame o k.toAssembly xs ≠ .ok none := by
      intro hnone
      unfold Cfg.next at h
      rw [hnone] at h
      exact h rfl
    unfold Cfg.next
    rw [nextFrame_append hk xs ys hne]

theorem scanner_next (k : Cfg) (xs : Bytes) : (scanner o).next k xs = k.next o xs := rfl

def Cfg.waiting (k : Cfg) (left : Bytes) : Conn :=
  { toAssembly := k.toAssembly, closed := false
    bytesCached := if left = [] then none else some left }

def result : Except (Log × Err) (Cfg × Bytes) → Result
  | .ok (k, left) => (k.log, .ok (k.waiting left))
  | .error (log, e) => (log, .error e)

theorem waiting_cached (k : Cfg) (left : Bytes) : (k.waiting left).bytesCached.getD [] = left := by
  unfold Cfg.waiting
  split
  · next h => exact h.symm
  · rfl

theorem keepRest_eq {total : Int} (hpos : 2 ≤ total) (hle : total ≤ xs.length) :
    keepRest xs total =
      .ok (if xs.drop total.toNat = [] then none else some (xs.drop total.toNat)) := by
  unfold keepRest
  rw [if_neg (by omega)]
  by_cases heq : (xs.length : Int) = total
  · rw [if_pos heq, if_pos (drop_of_length_le (by omega))]
  · have hne : xs.drop total.toNat ≠ [] := by
      intro hnil
      have := drop_eq_nil_iff.1 hnil
      omega
    rw [if_neg heq, if_neg hne]

theorem loop_eq (fuel : Nat) (k : Cfg) (xs : Bytes) (hfuel : xs.length < fuel) :
    loop o fuel (k.waiting xs) k.log = result ((scanner o).run k xs) := by
  induction fuel generalizing k xs with
  | zero => exact absurd hfuel (Nat.not_lt_zero _)
  | succ fuel ih =>
    unfold loop
    rw [if_neg (show ¬ (k.waiting xs).closed = true from Bool.false_ne_true)]
    dsimp only
    rw [waiting_cached, show (k.waiting xs).toAssembly = k.toAssembly from rfl]
    have hnext := scanner_next (o := o) k xs
    unfold Cfg.next at hnext
    -- the loop and the scanner look at the same frame
    cases hf : nextFrame o k.toAssembly xs with
    | error e =>
      have hne : xs ≠ [] := by
        rintro rfl
        cases hf
      rw [hf] at hnext
      rw [(scanner o).run_stop hne hnext]
      rfl
    | ok r =>
      cases r with
      | none =>
        rw [hf] at hnext
        rw [(scanner o).run_need hnext]
        rfl
      | some f =>
        obtain ⟨htwo, hle, -, -⟩ := nextFrame_spec hf
        have hne : xs ≠ [] := by
          rintro rfl
          cases hf
        rw [hf] at hnext
        dsimp only [Cfg.take] at hnext
        cases hon : onFrame o k.toAssembly f with
        | error e =>
          rw [hon] at hnext
          rw [(scanner o).run_stop hne hnext]
          dsimp only [result]
          rw [hon]
        | ok r =>
          obtain ⟨a, calls⟩ := r
          rw [hon] at hnext
          rw [(scanner o).run_step hnext, show f.total.toNat - 1 + 1 = f.total.toNat by omega]
          dsimp only
          rw [hon]
          rw [keepRest_eq htwo hle]
          have hlen : (xs.drop f.total.toNat).length < fuel := by
            rw [length_drop]
            omega
          exact ih ⟨a, k.log ++ calls⟩ _ hlen

/-! ## Sequences of calls -/

variable {k : Cfg} {left : Bytes}

theorem parse_eq_of_fits {data : Bytes} (hs : (scanner o).Settled (k, left))
    (hlimit : 0 < o.readLimit → left ≠ [] → (left.length + data.length : Int) ≤ o.readLimit) :
    parse o (k.waiting left) k.log data = result ((scanner o).feed (k, left) data) := by
  unfold parse
  by_cases hdata : data = []
  · have hfeed : (scanner o).feed (k, left) [] = .ok (k, left) := by
      rw [Scanner.feed, append_nil]
      exact hs
    rw [hdata, hfeed]
    rfl
  · have hfits : ¬ (0 < o.readLimit ∧ (k.waiting left).bytesCached.isSome ∧
        o.readLimit < (left.length : Int) + data.length) := by
      rintro ⟨hpos, hcached, hlt⟩
      have hleft : left ≠ [] := by
        rintro rfl
        cases hcached
      exact absurd (hlimit hpos hleft) (by omega)
    rw [if_neg hdata, waiting_cached, if_neg hfits]
    have hne : left ++ data ≠ [] := by simp [hdata]
    have hconn : { k.waiting left with bytesCached := some (left ++ data) } =
        k.waiting (left ++ data) := by
      rw [Cfg.waiting, Cfg.waiting, if_neg hne]
    dsimp only
    rw [hconn]
    exact loop_eq _ k (left ++ data) (Nat.lt_succ_self _)

theorem parse_eq {data : Bytes} (hs : (scanner o).Settled (k, left))
    (hlimit : 0 < o.readLimit → (left.length + data.length : Int) ≤ o.readLimit) :
    parse o (k.waiting left) k.log data = result ((scanner o).feed (k, left) data) :=
  parse_eq_of_fits hs fun hpos _ => hlimit hpos

/-- Every call of `Parse` stays within `ReadLimit`, with the bytes that are cached before it. -/
def fitsReadLimit (o : Options) : Conn → Log → List Bytes → Bool
  | _, _, [] => true
  | c, log, seg :: segs =>
    !(0 < o.readLimit && c.bytesCached.isSome &&
      o.readLimit < (c.bytesCached.getD []).length + seg.length) &&
    match parse o c log seg with
    | (log, .ok c) => fitsReadLimit o c log segs
    | (_, .error _) => true

theorem fits_waiting {data : Bytes}
    (h : (!(0 < o.readLimit && (k.waiting left).bytesCached.isSome &&
      o.readLimit < ((k.waiting left).bytesCached.getD []).length + data.length)) = true) :
    0 < o.readLimit → left ≠ [] → (left.length + data.length : Int) ≤ o.readLimit := by
  intro hpos hleft
  rw [Cfg.waiting, if_neg hleft] at h
  simpa [hpos] using h

variable {segs : List Bytes}

theorem feed_eq_of_fits (hs : (scanner o).Settled (k, left))
    (hfits : fitsReadLimit o (k.waiting left) k.log segs = true) :
    feed o (k.waiting left) k.log segs =
      result (segs.foldlM (scanner o).feed (k, left)) := by
  induction segs generalizing k left with
  | nil => rfl
  | cons seg segs ih =>
    rw [fitsReadLimit, Bool.and_eq_true] at hfits
    obtain ⟨hseg, hrest⟩ := hfits
    have hparse := parse_eq_of_fits hs (fits_waiting hseg)
    rw [hparse] at hrest
    rw [feed, hparse, foldlM_cons]
    cases h : (scanner o).feed (k, left) seg with
    | error e => rfl
    | ok c =>
      rw [h] at hrest
      exact ih ((scanner o).settled_feed h) hrest

theorem Cfg.next_log (o : Options) (k : Cfg) (xs : Bytes) :
    match k.next o xs with
    | .need => True
    | .stop e => k.log <+: e.1
    | .step _ k' => k.log <+: k'.log := by
  unfold Cfg.next
  cases nextFrame o k.toAssembly xs with
  | error e => exact prefix_append _ _
  | ok r =>
    cases r with
    | none => trivial
    | some f =>
      dsimp only [Cfg.take]
      cases onFrame o k.toAssembly f with
      | error e => exact prefix_append _ _
      | ok r => exact prefix_append _ _

theorem run_log (k : Cfg) (xs : Bytes) : k.log <+: (result ((scanner o).run k xs)).1 := by
  have hstep : ∀ {k₁ : Cfg} {ys : Bytes} {n : Nat} {k₂ : Cfg}, k.log <+: k₁.log →
      (scanner o).next k₁ ys = .step n k₂ → k.log <+: k₂.log := by
    intro k₁ ys n k₂ hlog hnext
    have hadd := k₁.next_log o ys
    rw [← scanner_next, hnext] at hadd
    exact hlog.trans hadd
  have hstop : ∀ {k₁ : Cfg} {ys : Bytes} {e : Log × Err}, k.log <+: k₁.log →
      (scanner o).next k₁ ys = .stop e → k.log <+: e.1 := by
    intro k₁ ys e hlog hnext
    have hadd := k₁.next_log o ys
    rw [← scanner_next, hnext] at hadd
    exact hlog.trans hadd
  cases hrun : (scanner o).run k xs with
  | ok r =>
    exact (scanner o).run_inv hstep prefix_rfl hrun
  | error e =>
    exact (scanner o).run_error
      hstep hstop prefix_rfl hrun

theorem parse_cases (hs : (scanner o).Settled (k, left)) (data : Bytes) :
    parse o (k.waiting left) k.log data = result ((scanner o).feed (k, left) data) ∨
      parse o (k.waiting left) k.log data = (k.log, .error .tooLong) := by
  by_cases hdata : data = []
  · left
    subst hdata
    have hfeed : (scanner o).feed (k, left) [] = .ok (k, left) := by
      rw [Scanner.feed, append_nil]
      exact hs
    rw [hfeed]
    rfl
  · by_cases hfits : 0 < o.readLimit → left ≠ [] → (left.length + data.length : Int) ≤ o.readLimit
    · exact .inl (parse_eq_of_fits hs hfits)
    · right
      simp only [Classical.not_imp, Int.not_le] at hfits
      obtain ⟨hpos, hleft, hlong⟩ := hfits
      have hcached : (k.waiting left).bytesCached = some left := if_neg hleft
      unfold parse
      rw [if_neg hdata, if_neg (show ¬ (k.waiting left).closed = true from Bool.false_ne_true),
        hcached, if_pos ⟨hpos, rfl, hlong⟩]

/-- Successive calls of `Parse` feed the scanner one piece after the other, up to one that is
refused because of `ReadLimit`. -/
theorem feed_cases (hk : (scanner o).Valid k) (hs : (scanner o).Settled (k, left))
    (segs : List Bytes) :
    feed o (k.waiting left) k.log segs = result ((scanner o).feed (k, left) segs.flatten) ∨
      ∃ log, feed o (k.waiting left) k.log segs = (log, .error .tooLong) ∧
        log <+: (result ((scanner o).feed (k, left) segs.flatten)).1 := by
  induction segs generalizing k left with
  | nil =>
    left
    rw [← (scanner o).foldlM_feed hk hs]
    rfl
  | cons seg segs ih =>
    rw [feed]
    rcases parse_cases hs seg with hparse | hparse
    · rw [hparse, flatten_cons, (scanner o).feed_append hk]
      cases hfeed : (scanner o).feed (k, left) seg with
      | error e => exact .inl rfl
      | ok c => exact ih ((scanner o).valid_feed hk hfeed) ((scanner o).settled_feed hfeed)
    · rw [hparse]
      exact .inr ⟨k.log, rfl, run_log k _⟩

theorem fits_of_le (hs : (scanner o).Settled (k, left))
    (hlimit : 0 < o.readLimit → (left.length + segs.flatten.length : Int) ≤ o.readLimit) :
    fitsReadLimit o (k.waiting left) k.log segs = true := by
  induction segs generalizing k left with
  | nil => rfl
  | cons seg segs ih =>
    rw [flatten_cons, length_append] at hlimit
    have hseg : 0 < o.readLimit → (left.length + seg.length : Int) ≤ o.readLimit := by
      omega
    rw [fitsReadLimit, Bool.and_eq_true]
    constructor
    · rw [waiting_cached, Bool.not_eq_true', Bool.and_eq_false_iff]
      by_cases hpos : 0 < o.readLimit
      · right
        exact decide_eq_false (Int.not_lt.2 (hseg hpos))
      · left
        rw [decide_eq_false hpos, Bool.false_and]
    · rw [parse_eq hs hseg]
      cases h : (scanner o).feed (k, left) seg with
      | error e => rfl
      | ok c =>
        have hlen := ((scanner o).run_suffix h).length_le
        rw [length_append] at hlen
        refine ih ((scanner o).settled_feed h) ?_
        dsimp only at hlen
        omega

theorem fits_of_consumesEach {k' : Cfg} (h : (scanner o).ConsumesEach k segs k') :
    fitsReadLimit o (k.waiting []) k.log segs = true := by
  induction segs generalizing k with
  | nil => rfl
  | cons seg segs ih =>
    obtain ⟨k₁, hfirst, hrest⟩ := h
    have hfeed : (scanner o).feed (k, []) seg = .ok (k₁, []) := hfirst.run
    rw [fitsReadLimit,
      parse_eq_of_fits ((scanner o).settled_nil k) fun _ hne => absurd rfl hne, hfeed,
      Bool.and_eq_true]
    exact ⟨by simp [Cfg.waiting], ih hrest⟩

theorem feed_eq (hs : (scanner o).Settled (k, left))
    (hlimit : 0 < o.readLimit → (left.length + segs.flatten.length : Int) ≤ o.readLimit) :
    feed o (k.waiting left) k.log segs =
      result (segs.foldlM (scanner o).feed (k, left)) :=
  feed_eq_of_fits hs (fits_of_le hs hlimit)

def newCfg : Cfg := { toAssembly := .idle, log := [] }

theorem newCfg_valid (o : Options) : (scanner o).Valid newCfg := Assembly.idle_wf o

theorem feed_newConn (hlimit : (segs.flatten.length : Int) ≤ o.readLimit) :
    feed o newConn [] segs = result ((scanner o).run newCfg segs.flatten) := by
  have hs := (scanner o).settled_nil newCfg
  have hfeed : feed o newConn [] segs = _ :=
    feed_eq hs fun _ => by rw [length_nil]; omega
  rw [hfeed, (scanner o).foldlM_feed (newCfg_valid o) hs]
  rfl

/-- However a stream is cut into pieces, `Parse` called for one piece after the other, up to the
first error, makes the calls of one `Parse` of the whole stream, and ends with its error or
leaves the connection as it does. -/
theorem feed_eq_parse_whole (o : Options) (s : Bytes) (segs : List Bytes)
    (hcut : segs.flatten = s) (hlimit : (s.length : Int) ≤ o.readLimit) :
    feed o newConn [] segs = parse o newConn [] s := by
  subst hcut
  have hparse : parse o newConn [] segs.flatten = _ :=
    parse_eq ((scanner o).settled_nil newCfg) fun _ => by rw [length_nil]; omega
  rw [feed_newConn hlimit, hparse]
  rfl

/-- A server that takes messages and frames of any length, without compression. -/
def plainOptions : Options :=
  { readLimit := 100, messageLengthLimit := 0, enableCompression := false, messageHandler := true
    dataFrameHandler := true, inflate := .ok
    readLimit_lt := by decide, messageLengthLimit_lt := by decide }

/-- A masked frame cut inside its key, and one with a reserved opcode. -/
theorem feed_eq_parse_whole_masked :
    let segs : List Bytes := [[0x81, 0x82, 1], [2, 3, 4, 105], [107, 0x83], [0, 0]]
    feed plainOptions newConn [] segs = parse plainOptions newConn [] segs.flatten ∧
      feed plainOptions newConn [] segs =
        ([.message 1 (ascii "hi"), .dataFrame 1 true (ascii "hi")],
          .error (.reservedMessageType 3)) :=
  ⟨feed_eq_parse_whole plainOptions _ [[0x81, 0x82, 1], [2, 3, 4, 105], [107, 0x83], [0, 0]] rfl
    (by decide), by decide⟩

end Nbio.Websocket
