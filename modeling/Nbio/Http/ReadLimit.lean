import Nbio.Http.Bounds
import Nbio.Http.Framing

/-!
# What the `ReadLimit` bounds

A call of `Parse` is refused if the bytes that are cached and those that are new are together more
than the `ReadLimit`.  What has been reported is no longer cached, so that this bounds what the
parser looks at in a call and what it keeps until the next (`cache_le_readLimit`), and not the size
of a head: each line of it can come in a call of its own (`head_exceeds_readLimit`).
-/

namespace Nbio.Http

open Nbio.Go List

namespace Parser

variable {proc : Processor} {readLimit : Int} {p : Parser} {log : Log}

theorem keepLeft_cache_le {data : Bytes} {start n : Nat} (hdata : data.length ≤ n)
    (hcache : p.cache.length ≤ n) : (p.keepLeft data start).cache.length ≤ n := by
  have hdrop : (data.drop start).length ≤ n := by
    rw [length_drop]
    omega
  unfold keepLeft
  dsimp only
  repeat' split
  all_goals first
    | exact hdrop
    | exact hcache
    | exact Nat.zero_le _

theorem leave_cache_le {data : Bytes} {n : Nat} (e : LoopEnd) (hdata : data.length ≤ n)
    (hcache : p.cache.length ≤ n) : (leave proc p data e).parser.cache.length ≤ n := by
  cases e with
  | exit f log start => exact keepLeft_cache_le hdata hcache
  | upgrade f log start => exact Nat.zero_le _
  | fail f log e => exact hcache
  | panic f log => exact hcache
  | stuck f log => exact hcache

theorem parse_cache_le {data : Bytes} {n : Nat} (hn : 0 < n) (hseg : data.length ≤ n)
    (hcache : p.cache.length ≤ n) (herr : (p.parse proc n log data).err = none) :
    (p.parse proc n log data).parser.cache.length ≤ n := by
  unfold parse at herr ⊢
  dsimp only at herr ⊢
  by_cases hclose : p.state = .close
  · rw [if_pos hclose] at herr
    cases herr
  rw [if_neg hclose] at herr ⊢
  by_cases hnil : data = []
  · rw [if_pos hnil]
    exact hcache
  rw [if_neg hnil] at herr ⊢
  have hcached : p.initReadDeadline.bytesCached.getD [] = p.cache := rfl
  rw [hcached] at herr ⊢
  by_cases hlimit : 0 < p.cache.length ∧ (0 : Int) < n ∧ (n : Int) < p.cache.length + data.length
  · rw [if_pos hlimit] at herr
    cases herr
  rw [if_neg hlimit]
  have hload : (p.cache ++ data).length ≤ n := by
    rw [length_append]
    omega
  generalize hq : (if 0 < p.cache.length then
    { p.initReadDeadline with bytesCached := some (p.cache ++ data) } else p.initReadDeadline) = q
  have hqcache : q.cache.length ≤ n := by
    subst hq
    split
    · exact hload
    · exact hcache
  split
  · exact Nat.zero_le _
  · exact leave_cache_le _ hload hqcache

theorem feed_cache_le {n : Nat} (hn : 0 < n) {segs : List Bytes}
    (hsegs : ∀ seg ∈ segs, seg.length ≤ n)
    (hcache : p.cache.length ≤ n) (herr : (p.feed proc n log segs).err = none) :
    (p.feed proc n log segs).parser.cache.length ≤ n := by
  induction segs generalizing p log with
  | nil => exact hcache
  | cons seg segs ih =>
    rw [forall_mem_cons] at hsegs
    rw [feed] at herr ⊢
    cases hseg : (p.parse proc n log seg).err with
    | some e =>
      simp only [hseg] at herr
      cases herr
    | none =>
      simp only [hseg] at herr ⊢
      exact ih hsegs.2 (parse_cache_le hn hsegs.1 hcache hseg) herr

theorem feed_append {segs segs' : List Bytes} (h : (p.feed proc readLimit log segs).err = none) :
    p.feed proc readLimit log (segs ++ segs') = (p.feed proc readLimit log segs).parser.feed proc
      readLimit (p.feed proc readLimit log segs).log segs' := by
  induction segs generalizing p log with
  | nil => rfl
  | cons seg segs ih =>
    rw [feed] at h
    rw [cons_append, feed, feed]
    cases hseg : (p.parse proc readLimit log seg).err with
    | some e =>
      simp only [hseg] at h
      cases h
    | none =>
      simp only [hseg] at h ⊢
      exact ih h

theorem parse_exceeds_log {data : Bytes} (hp : p.WF) (hdata : data ≠ [])
    (hlimit : p.Exceeds readLimit data) : (p.parse proc readLimit log data).log = log := by
  rw [parse, if_neg hp.live]
  exact congrArg Result.log ((if_neg hdata).trans (if_pos hlimit))

end Parser

/-- Whatever is fed to a new parser in segments of at most `ReadLimit` bytes: what it keeps is never
more than that, and a call for which the kept and the new bytes are more is refused before it calls
anything. -/
theorem cache_le_readLimit (proc : Processor) (isClient : Bool) {readLimit : Int}
    (hpos : 0 < readLimit) (segs : List Bytes)
    (hsegs : ∀ seg ∈ segs, (seg.length : Int) ≤ readLimit)
    (herr : ((newParser isClient).feed proc readLimit [] segs).err = none) :
    let r := (newParser isClient).feed proc readLimit [] segs
    (r.parser.cache.length : Int) ≤ readLimit ∧
    ∀ seg, r.parser.cache ≠ [] → seg ≠ [] →
      readLimit < (r.parser.cache.length : Int) + (seg.length : Int) →
      (r.parser.parse proc readLimit r.log seg).err = some .tooLong ∧
      (r.parser.parse proc readLimit r.log seg).log = r.log := by
  obtain ⟨n, rfl⟩ := Int.eq_ofNat_of_zero_le hpos.le
  have hn : 0 < n := by omega
  have hcache := Parser.feed_cache_le (p := newParser isClient) hn
    (fun seg hseg => Int.ofNat_le.1 (hsegs seg hseg)) (Nat.zero_le n) herr
  have hsound := Parser.feed_sound (Parser.newParser_sound isClient) herr
  refine ⟨Int.ofNat_le.2 hcache, fun seg hne hseg hlt => ?_⟩
  have hex : Parser.Exceeds _ (n : Int) seg := ⟨length_pos_iff.2 hne, hpos, hlt⟩
  exact ⟨Parser.parse_exceeds hsound.toWF hseg hex, Parser.parse_exceeds_log hsound.toWF hseg hex⟩

theorem cache_le_readLimit_half_line :
    let r := (newParser false).feed .accept 16 [] [ascii "GET / HTTP/1.1\r\n", ascii "Ab: c"]
    (r.parser.cache.length : Int) ≤ 16 ∧
      (r.parser.parse .accept 16 r.log (ascii "0123456789abcdef")).err = some .tooLong := by
  have hpos : (0 : Int) < 16 := by decide
  have h := cache_le_readLimit .accept false hpos
    [ascii "GET / HTTP/1.1\r\n", ascii "Ab: c"] (by decide +kernel) rfl
  exact ⟨h.1, (h.2 _ (by decide +kernel) (by decide) (by decide +kernel)).1⟩

/-! ## Heads of any size -/

/-- The bytes of the present head: those that `OnHeader` was called with and those in the cache. -/
def Result.headSize (r : Result) : Nat :=
  ((headLines r.log).map fun l => l.1.length + l.2.length).sum + r.parser.cache.length

def headStart : List Bytes := [ascii "GET / HTTP/1.1\r\n", ascii "A: b\r\n"]

def inHead : Parser := ((newParser false).feed .accept 16 [] headStart).parser

theorem parse_inHead (log : Log) : inHead.parse .accept 16 log (ascii "A: b\r\n") =
    { parser := inHead, log := log ++ [.onHeader (ascii "A") (ascii "b")], err := none,
      recovered := false } :=
  rfl

theorem feed_inHead (n : Nat) (log : Log) :
    inHead.feed .accept 16 log (replicate n (ascii "A: b\r\n")) =
      { parser := inHead, log := log ++ replicate n (.onHeader (ascii "A") (ascii "b")),
        err := none, recovered := false } := by
  induction n generalizing log with
  | zero => rw [replicate_zero, replicate_zero, append_nil, Parser.feed]
  | succ n ih =>
    rw [replicate_succ, Parser.feed, parse_inHead]
    rw [ih, append_assoc, singleton_append, replicate_succ]

theorem headLines_replicate (log : Log) (n : Nat) (key value : Bytes) :
    headLines (log ++ replicate n (.onHeader key value)) =
      headLines log ++ replicate n (key, value) := by
  induction n with
  | zero => rw [replicate_zero, replicate_zero, append_nil, append_nil]
  | succ n ih =>
    rw [replicate_succ', ← append_assoc, headLines_append, ih, addLine,
      append_assoc, replicate_succ']

theorem feed_headStart (n : Nat) :
    let r := (newParser false).feed .accept 16 []
      (headStart ++ replicate n (ascii "A: b\r\n"))
    r.err = none ∧ r.headSize = 2 * (n + 1) := by
  have hstart : ((newParser false).feed .accept 16 [] headStart).err = none := by decide +kernel
  have hlines : headLines ((newParser false).feed .accept 16 [] headStart).log =
      [(ascii "A", ascii "b")] := by decide +kernel
  have hcache : inHead.cache = [] := by decide +kernel
  have hkey : (ascii "A").length + (ascii "b").length = 2 := rfl
  rw [Parser.feed_append hstart, ← inHead, feed_inHead]
  refine ⟨rfl, ?_⟩
  rw [Result.headSize, headLines_replicate, hlines, hcache]
  simp only [map_append, map_cons, map_nil, map_replicate, hkey,
    sum_append, sum_cons, sum_nil, sum_replicate_nat, length_nil]
  omega

/-- Nine header lines are more than the limit of sixteen bytes. -/
theorem head_exceeds_readLimit :
    let segs := headStart ++ replicate 8 (ascii "A: b\r\n")
    let r := (newParser false).feed .accept 16 [] segs
    (∀ seg ∈ segs, seg.length ≤ 16) ∧ r.err = none ∧ 16 < r.headSize := by
  obtain ⟨herr, hsize⟩ := feed_headStart 8
  refine ⟨by decide, herr, ?_⟩
  decide

end Nbio.Http
