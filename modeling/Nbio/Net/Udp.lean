import Nbio.Go.Binary
import Nbio.Go.Slice
import Nbio.Lib.Log
import Nbio.Lib.Machine

/-!
# The children of a UDP server

A UDP server has one descriptor for all of its peers.  `readUDP` looks the sender of a datagram up
in `conns` by a key of 22 bytes, and makes a child connection for a sender that it does not find; a
child that is closed deletes its key.  A datagram and a `Close` are one step each.

The children are numbered in the order in which they are made.
-/

namespace Nbio.Net.Udp

open Nbio.Go Nbio.Lib Option

/-- `syscall.SockaddrInet4` and `syscall.SockaddrInet6`. -/
inductive Sockaddr where
  | inet4 (port : UInt16) (addr : Vector UInt8 4)
  | inet6 (port : UInt16) (zoneId : UInt32) (addr : Vector UInt8 16)
deriving DecidableEq, Repr

/-- Whether two addresses are of one family. -/
def Sockaddr.isInet4 : Sockaddr → Bool
  | .inet4 _ _ => true
  | .inet6 _ _ _ => false

abbrev UdpAddrKey := Bytes

/-- `getUDPNetAddrKey`; `none` is an address that is nil. -/
def getUDPNetAddrKey : Option Sockaddr → UdpAddrKey
  | none => List.replicate 22 0
  | some (.inet4 port addr) =>
    let ret := Slice.overwrite (List.replicate 22 0) 0 addr.toList
    Slice.overwrite ret 16 (putLeUint 2 port.toNat)
  | some (.inet6 port zoneId addr) =>
    let ret := Slice.overwrite (List.replicate 22 0) 0 addr.toList
    let ret := Slice.overwrite ret 16 (putLeUint 2 port.toNat)
    Slice.overwrite ret 18 (putLeUint 4 zoneId.toNat)

structure Child where
  rAddr : Sockaddr
  rAddrKey : UdpAddrKey
  closed : Bool
deriving DecidableEq, Repr

/-- What the server does, by the number of the child: `onOpen` is called, a datagram of `sa` is read
and handed over unless it is empty, a child is closed. -/
inductive Entry where
  | onOpen (n : Nat)
  | datagram (sa : Sockaddr) (data : Bytes) (n : Nat)
  | closed (n : Nat)
deriving DecidableEq, Repr

structure Server where
  conns : UdpAddrKey → Option Nat
  children : List Child
  log : List Entry

def start : Server := { conns := fun _ => none, children := [], log := [] }

namespace Server

/-- `u.conns[key] = c` and, for `none`, `delete`. -/
def setConn (s : Server) (key : UdpAddrKey) (c : Option Nat) : Server :=
  { s with conns := fun key' => if key' = key then c else s.conns key' }

def make (s : Server) (rsa : Sockaddr) (rAddrKey : UdpAddrKey) : Server :=
  let c : Child := { rAddr := rsa, rAddrKey := rAddrKey, closed := false }
  { s with children := s.children ++ [c] }.setConn rAddrKey (some s.children.length)

/-- `getConn`: the child, and whether it was there. -/
def getConn (s : Server) (rsa : Sockaddr) : (Nat × Bool) × Server :=
  let rAddrKey := getUDPNetAddrKey (some rsa)
  match s.conns rAddrKey with
  | some c => ((c, true), s)
  | none => ((s.children.length, false), s.make rsa rAddrKey)

/-- The connection for a sender, for which `onOpen` has been called. -/
def opened (s : Server) (rAddr : Sockaddr) : Nat × Server :=
  let ((uc, ok), s) := s.getConn rAddr
  (uc, if ok then s else { s with log := s.log ++ [.onOpen uc] })

/-- `readUDP`, and the call of `onDataPtr` by its caller. -/
def readUDP (s : Server) (rAddr : Sockaddr) (data : Bytes) : Server :=
  let (uc, s) := s.opened rAddr
  { s with log := s.log ++ [.datagram rAddr data uc] }

def shut (s : Server) (n : Nat) (child : Child) : Server :=
  let s : Server := { s with
    children := s.children.set n { child with closed := true }
    log := s.log ++ [.closed n] }
  s.setConn child.rAddrKey none

def close (s : Server) (n : Nat) : Server :=
  match s.children[n]? with
  | none => s
  | some child =>
    if child.closed then s else s.shut n child

end Server

inductive Event where
  | datagram (sa : Sockaddr) (data : Bytes)
  | close (n : Nat)
deriving DecidableEq, Repr

def Event.run (s : Server) : Event → Server
  | .datagram sa data => s.readUDP sa data
  | .close n => s.close n

/-- The events on a server whose senders are of one family. -/
def Event.ofFamily (inet4 : Bool) : Event → Bool
  | .datagram sa _ => sa.isInet4 = inet4
  | .close _ => true

/-! ## Keys -/

theorem overwrite_zeros (addr : Bytes) :
    Slice.overwrite (List.replicate 22 0) 0 addr = addr ++ List.replicate (22 - addr.length) 0 := by
  rw [Slice.overwrite, List.take_zero, List.nil_append, Nat.zero_add, List.drop_replicate]

theorem getUDPNetAddrKey_inet4 (port : UInt16) (addr : Vector UInt8 4) :
    getUDPNetAddrKey (some (.inet4 port addr)) =
      addr.toList ++ (List.replicate 12 0 ++ (putLeUint 2 port.toNat ++ List.replicate 4 0)) := by
  simp only [getUDPNetAddrKey, overwrite_zeros]
  rw [Slice.overwrite]
  simp [List.take_append, List.drop_append, List.drop_of_length_le]

theorem getUDPNetAddrKey_inet6 (port : UInt16) (zoneId : UInt32) (addr : Vector UInt8 16) :
    getUDPNetAddrKey (some (.inet6 port zoneId addr)) =
      addr.toList ++ (putLeUint 2 port.toNat ++ putLeUint 4 zoneId.toNat) := by
  simp only [getUDPNetAddrKey, overwrite_zeros]
  rw [Slice.overwrite, Slice.overwrite]
  simp [List.take_append, List.drop_of_length_le]

theorem putLeUint_injective {n v w : Nat} (hv : v < 256 ^ n) (hw : w < 256 ^ n)
    (h : putLeUint n v = putLeUint n w) : v = w := by
  rw [← leUint_putLeUint hv, h, leUint_putLeUint hw]

variable {sa : Sockaddr}

theorem getUDPNetAddrKey_injective {sa' : Sockaddr} (hfamily : sa.isInet4 = sa'.isInet4)
    (hkey : getUDPNetAddrKey (some sa) = getUDPNetAddrKey (some sa')) : sa = sa' := by
  cases sa with
  | inet4 port addr =>
    cases sa' with
    | inet6 port' zoneId' addr' => cases hfamily
    | inet4 port' addr' =>
      rw [getUDPNetAddrKey_inet4, getUDPNetAddrKey_inet4] at hkey
      obtain ⟨haddr, hrest⟩ := List.append_inj hkey (by simp)
      obtain ⟨-, hport⟩ := List.append_inj hrest rfl
      have hport :=
        putLeUint_injective port.toNat_lt port'.toNat_lt (List.append_inj hport (by simp)).1
      rw [Vector.toList_inj.1 haddr, UInt16.toNat_inj.1 hport]
  | inet6 port zoneId addr =>
    cases sa' with
    | inet4 port' addr' => cases hfamily
    | inet6 port' zoneId' addr' =>
      rw [getUDPNetAddrKey_inet6, getUDPNetAddrKey_inet6] at hkey
      obtain ⟨haddr, hrest⟩ := List.append_inj hkey (by simp)
      obtain ⟨hport, hzone⟩ := List.append_inj hrest (by simp)
      have hport := putLeUint_injective port.toNat_lt port'.toNat_lt hport
      have hzone := putLeUint_injective zoneId.toNat_lt zoneId'.toNat_lt hzone
      rw [Vector.toList_inj.1 haddr, UInt16.toNat_inj.1 hport, UInt32.toNat_inj.1 hzone]

/-! ## Whole runs -/

open List

/-- What the log says of a datagram: its child is open and that of its sender, and of no other
sender. -/
def Sound (pre : List Entry) : Entry → Prop
  | .datagram sa _ n =>
    .onOpen n ∈ pre ∧ .closed n ∉ pre ∧
      (∀ data' n', .datagram sa data' n' ∈ pre → .closed n' ∉ pre → n' = n) ∧
      ∀ sa' data', .datagram sa' data' n ∈ pre → sa' = sa
  | _ => True

structure Inv (inet4 : Bool) (s : Server) : Prop where
  keys : ∀ (n : Nat) (c : Child), s.children[n]? = some c →
    c.rAddrKey = getUDPNetAddrKey (some c.rAddr) ∧ c.rAddr.isInet4 = inet4
  /-- `conns` has the open children, each under its key. -/
  entry : ∀ key (n : Nat), s.conns key = some n ↔
    ∃ c, s.children[n]? = some c ∧ c.closed = false ∧ c.rAddrKey = key
  opens : ∀ n, s.log.count (.onOpen n) = if n < s.children.length then 1 else 0
  closes : ∀ n : Nat, .closed n ∈ s.log ↔ ∃ c, s.children[n]? = some c ∧ c.closed = true
  senders : ∀ sa data (n : Nat), .datagram sa data n ∈ s.log →
    ∃ c, s.children[n]? = some c ∧ c.rAddr = sa
  sound : Justified Sound s.log

variable {inet4 : Bool} {s : Server}

theorem start_inv (inet4 : Bool) : Inv inet4 start where
  keys := by simp [start]
  entry := by simp [start]
  opens := by simp [start]
  closes := by simp [start]
  senders := by simp [start]
  sound := .nil

theorem Inv.conns_eq (h : Inv inet4 s) (hfamily : sa.isInet4 = inet4) (n : Nat) :
    s.conns (getUDPNetAddrKey (some sa)) = some n ↔
      ∃ c, s.children[n]? = some c ∧ c.closed = false ∧ c.rAddr = sa := by
  rw [h.entry]
  constructor
  · rintro ⟨c, hc, hopen, hkey⟩
    obtain ⟨hkey', hfamily'⟩ := h.keys n c hc
    exact ⟨c, hc, hopen, getUDPNetAddrKey_injective (hfamily'.trans hfamily.symm)
      (hkey'.symm.trans hkey)⟩
  · rintro ⟨c, hc, hopen, rfl⟩
    exact ⟨c, hc, hopen, (h.keys n c hc).1⟩

theorem make_children {rsa : Sockaddr} {key : UdpAddrKey} {n : Nat} {c : Child} :
    (s.make rsa key).children[n]? = some c ↔
      s.children[n]? = some c ∨ n = s.children.length ∧ c = ⟨rsa, key, false⟩ := by
  change (s.children ++ [_])[n]? = some c ↔ _
  rw [getElem?_append]
  split
  · next hlt =>
    constructor
    · exact .inl
    · rintro (hc | ⟨rfl, -⟩)
      · exact hc
      · omega
  · next hge =>
    have hnone : s.children[n]? = none := getElem?_eq_none (by omega)
    rw [hnone, getElem?_singleton]
    constructor
    · intro hc
      split at hc
      · cases hc
        exact .inr ⟨by omega, rfl⟩
      · cases hc
    · rintro (hc | ⟨rfl, rfl⟩)
      · cases hc
      · rw [if_pos (by omega)]

theorem Inv.make (h : Inv inet4 s) (hfamily : sa.isInet4 = inet4)
    (hnone : s.conns (getUDPNetAddrKey (some sa)) = none) :
    Inv inet4 { s.make sa (getUDPNetAddrKey (some sa)) with
      log := s.log ++ [.onOpen s.children.length] } where
  keys := by
    intro n c hc
    rcases make_children.1 hc with hc | ⟨-, rfl⟩
    · exact h.keys n c hc
    · exact ⟨rfl, hfamily⟩
  entry := by
    intro key n
    change (if key = getUDPNetAddrKey (some sa) then some s.children.length
      else s.conns key) = some n ↔
      ∃ c, (s.make sa _).children[n]? = some c ∧ _
    by_cases hkey : key = getUDPNetAddrKey (some sa)
    · rw [if_pos hkey]
      constructor
      · intro hn
        cases hn
        exact ⟨_, make_children.2 (.inr ⟨rfl, rfl⟩), rfl, hkey.symm⟩
      · rintro ⟨c, hc, hopen, rfl⟩
        rcases make_children.1 hc with hc | ⟨rfl, -⟩
        · have hconn := (h.entry c.rAddrKey n).2 ⟨c, hc, hopen, rfl⟩
          rw [hkey, hnone] at hconn
          cases hconn
        · rfl
    · rw [if_neg hkey, h.entry]
      constructor
      · rintro ⟨c, hc, hrest⟩
        exact ⟨c, make_children.2 (.inl hc), hrest⟩
      · rintro ⟨c, hc, hopen, hckey⟩
        rcases make_children.1 hc with hc | ⟨-, rfl⟩
        · exact ⟨c, hc, hopen, hckey⟩
        · exact absurd hckey.symm hkey
  opens := by
    intro n
    change (s.log ++ [Entry.onOpen s.children.length]).count (.onOpen n) =
      if n < (s.children ++ [_]).length then 1 else 0
    rw [count_append, h.opens, length_append, length_singleton, count_singleton]
    by_cases hn : n = s.children.length
    · subst hn
      simp
    · have hne : (Entry.onOpen s.children.length == Entry.onOpen n) = false := by
        simp only [beq_eq_false_iff_ne, ne_eq, Entry.onOpen.injEq]
        omega
      have hlt : n < s.children.length + 1 ↔ n < s.children.length := by omega
      simp only [hne, hlt, Bool.false_eq_true, if_false, Nat.add_zero]
  closes := by
    intro n
    rw [mem_append, or_iff_left (by simp), h.closes]
    constructor
    · rintro ⟨c, hc, hclosed⟩
      exact ⟨c, make_children.2 (.inl hc), hclosed⟩
    · rintro ⟨c, hc, hclosed⟩
      rcases make_children.1 hc with hc | ⟨-, rfl⟩
      · exact ⟨c, hc, hclosed⟩
      · cases hclosed
  senders := by
    intro sa' data n hmem
    rw [mem_append, or_iff_left (by simp)] at hmem
    obtain ⟨c, hc, hsa⟩ := h.senders sa' data n hmem
    exact ⟨c, make_children.2 (.inl hc), hsa⟩
  sound := h.sound.snoc trivial

theorem opened_of_some {c : Nat} (hconn : s.conns (getUDPNetAddrKey (some sa)) = some c) :
    s.opened sa = (c, s) := by
  simp only [Server.opened, Server.getConn, hconn, if_true]

theorem opened_of_none (hconn : s.conns (getUDPNetAddrKey (some sa)) = none) :
    s.opened sa = (s.children.length, { s.make sa (getUDPNetAddrKey (some sa)) with
      log := s.log ++ [.onOpen s.children.length] }) := by
  simp only [Server.opened, Server.getConn, hconn]
  rfl

theorem Inv.opened (h : Inv inet4 s) (hfamily : sa.isInet4 = inet4) :
    Inv inet4 (s.opened sa).2 ∧
      (s.opened sa).2.conns (getUDPNetAddrKey (some sa)) = some (s.opened sa).1 := by
  cases hconn : s.conns (getUDPNetAddrKey (some sa)) with
  | some c =>
    rw [opened_of_some hconn]
    exact ⟨h, hconn⟩
  | none =>
    rw [opened_of_none hconn]
    exact ⟨h.make hfamily hconn, if_pos rfl⟩

theorem Inv.datagram (h : Inv inet4 s) (hfamily : sa.isInet4 = inet4) {n : Nat}
    (hconn : s.conns (getUDPNetAddrKey (some sa)) = some n) (data : Bytes) :
    Inv inet4 { s with log := s.log ++ [.datagram sa data n] } where
  keys := h.keys
  entry := h.entry
  opens := by
    intro m
    rw [count_append, h.opens m]
    simp
  closes := by
    intro m
    simpa using h.closes m
  senders := by
    intro sa' data' m hmem
    rw [mem_append, mem_singleton] at hmem
    rcases hmem with hmem | heq
    · exact h.senders sa' data' m hmem
    · cases heq
      obtain ⟨c, hc, -, hsa⟩ := (h.conns_eq hfamily n).1 hconn
      exact ⟨c, hc, hsa⟩
  sound := by
    obtain ⟨c, hc, hopen, hsa⟩ := (h.conns_eq hfamily n).1 hconn
    refine h.sound.snoc ⟨?_, ?_, ?_, ?_⟩
    · have hlt : n < s.children.length := (List.getElem?_eq_some_iff.1 hc).1
      have hcount := h.opens n
      rw [if_pos hlt] at hcount
      exact count_pos_iff.1 (by omega)
    · rw [h.closes]
      rintro ⟨c', hc', hclosed⟩
      rw [hc] at hc'
      cases hc'
      rw [hopen] at hclosed
      cases hclosed
    · intro data' n' hmem hclosed
      obtain ⟨c', hc', hsa'⟩ := h.senders sa data' n' hmem
      have hopen' : c'.closed = false := by
        rw [Bool.eq_false_iff]
        exact fun hcl => hclosed ((h.closes n').2 ⟨c', hc', hcl⟩)
      have hconn' := (h.conns_eq hfamily n').2 ⟨c', hc', hopen', hsa'⟩
      rw [hconn] at hconn'
      exact (Option.some.inj hconn').symm
    · intro sa' data' hmem
      obtain ⟨c', hc', hsa'⟩ := h.senders sa' data' n hmem
      rw [hc] at hc'
      cases hc'
      exact hsa'.symm.trans hsa

theorem Inv.conns_of_open (h : Inv inet4 s) {n : Nat} {c : Child} (hc : s.children[n]? = some c)
    (hopen : c.closed = false) (key : UdpAddrKey) : s.conns key = some n ↔ key = c.rAddrKey := by
  rw [h.entry]
  constructor
  · rintro ⟨c', hc', -, hkey⟩
    rw [hc] at hc'
    cases hc'
    exact hkey.symm
  · rintro rfl
    exact ⟨c, hc, hopen, rfl⟩

theorem close_eq {n : Nat} :
    (∃ c, s.children[n]? = some c ∧ c.closed = false ∧ s.close n = s.shut n c) ∨
      (∀ c, s.children[n]? = some c → c.closed = true) ∧ s.close n = s := by
  unfold Server.close
  cases hc : s.children[n]? with
  | none => exact .inr ⟨by simp, rfl⟩
  | some c =>
    cases hclosed : c.closed with
    | true => exact .inr ⟨by simp [hclosed], by simp [hclosed]⟩
    | false => exact .inl ⟨c, rfl, hclosed, by simp [hclosed]⟩

theorem Inv.close_conns (h : Inv inet4 s) (n : Nat) (key : UdpAddrKey) :
    (s.close n).conns key = if s.conns key = some n then none else s.conns key := by
  rcases close_eq (s := s) (n := n) with ⟨c, hc, hopen, heq⟩ | ⟨hclosed, heq⟩
  · simp only [heq, h.conns_of_open hc hopen]
    rfl
  · rw [heq, if_neg]
    intro hconn
    obtain ⟨c, hc, hopen, -⟩ := (h.entry key n).1 hconn
    rw [hclosed c hc] at hopen
    cases hopen

theorem shut_children {n m : Nat} {c d : Child} (hc : s.children[n]? = some c) :
    (s.shut n c).children[m]? = some d ↔
      m ≠ n ∧ s.children[m]? = some d ∨ m = n ∧ d = { c with closed := true } := by
  change (s.children.set n _)[m]? = some d ↔ _
  have hlt : n < s.children.length := (List.getElem?_eq_some_iff.1 hc).1
  rw [getElem?_set]
  by_cases hnm : n = m
  · subst hnm
    rw [if_pos rfl, if_pos hlt]
    constructor
    · intro hd
      exact .inr ⟨rfl, (Option.some.inj hd).symm⟩
    · rintro (⟨hne, -⟩ | ⟨-, rfl⟩)
      · exact absurd rfl hne
      · rfl
  · rw [if_neg hnm]
    constructor
    · exact fun hd => .inl ⟨fun heq => hnm heq.symm, hd⟩
    · rintro (⟨-, hd⟩ | ⟨heq, -⟩)
      · exact hd
      · exact absurd heq.symm hnm

theorem Inv.shut (h : Inv inet4 s) {n : Nat} {c : Child} (hc : s.children[n]? = some c)
    (hopen : c.closed = false) : Inv inet4 (s.shut n c) where
  keys := by
    intro m d hd
    rcases (shut_children hc).1 hd with ⟨-, hd⟩ | ⟨-, rfl⟩
    · exact h.keys m d hd
    · exact h.keys n c hc
  entry := by
    intro key m
    change (if key = c.rAddrKey then none else s.conns key) = some m ↔ _
    constructor
    · intro hconn
      obtain ⟨hkey, hconn⟩ := ite_none_left_eq_some.1 hconn
      obtain ⟨d, hd, hdopen, hdkey⟩ := (h.entry key m).1 hconn
      have hne : m ≠ n := by
        rintro rfl
        exact hkey ((h.conns_of_open hc hopen key).1 hconn)
      exact ⟨d, (shut_children hc).2 (.inl ⟨hne, hd⟩), hdopen, hdkey⟩
    · rintro ⟨d, hd, hdopen, hdkey⟩
      rcases (shut_children hc).1 hd with ⟨hne, hd⟩ | ⟨-, rfl⟩
      · have hconn := (h.entry key m).2 ⟨d, hd, hdopen, hdkey⟩
        rw [if_neg, hconn]
        intro hkey
        rw [(h.conns_of_open hc hopen key).2 hkey] at hconn
        exact hne (Option.some.inj hconn).symm
      · cases hdopen
  opens := by
    intro m
    change (s.log ++ [Entry.closed n]).count (.onOpen m) =
      if m < (s.children.set n _).length then 1 else 0
    rw [count_append, h.opens]
    simp
  closes := by
    intro m
    change Entry.closed m ∈ s.log ++ [Entry.closed n] ↔ _
    rw [mem_append, mem_singleton, h.closes]
    constructor
    · rintro (⟨d, hd, hclosed⟩ | heq)
      · by_cases hmn : m = n
        · exact ⟨_, (shut_children hc).2 (.inr ⟨hmn, rfl⟩), rfl⟩
        · exact ⟨d, (shut_children hc).2 (.inl ⟨hmn, hd⟩), hclosed⟩
      · cases heq
        exact ⟨_, (shut_children hc).2 (.inr ⟨rfl, rfl⟩), rfl⟩
    · rintro ⟨d, hd, hclosed⟩
      rcases (shut_children hc).1 hd with ⟨-, hd⟩ | ⟨rfl, -⟩
      · exact .inl ⟨d, hd, hclosed⟩
      · exact .inr rfl
  senders := by
    intro sa data m hmem
    have hmem' : Entry.datagram sa data m ∈ s.log ++ [Entry.closed n] := hmem
    rw [mem_append, or_iff_left (by simp)] at hmem'
    obtain ⟨d, hd, hsa⟩ := h.senders sa data m hmem'
    by_cases hmn : m = n
    · subst hmn
      rw [hc] at hd
      cases hd
      exact ⟨_, (shut_children hc).2 (.inr ⟨rfl, rfl⟩), hsa⟩
    · exact ⟨d, (shut_children hc).2 (.inl ⟨hmn, hd⟩), hsa⟩
  sound := h.sound.snoc trivial

theorem Inv.run (h : Inv inet4 s) {e : Event} (he : e.ofFamily inet4 = true) :
    Inv inet4 (e.run s) := by
  cases e with
  | datagram sa data =>
    have hfamily : sa.isInet4 = inet4 := of_decide_eq_true he
    obtain ⟨hinv, hconn⟩ := h.opened hfamily
    exact hinv.datagram hfamily hconn data
  | close n =>
    change Inv inet4 (s.close n)
    rcases close_eq with ⟨c, hc, hopen, heq⟩ | ⟨-, heq⟩
    · rw [heq]
      exact h.shut hc hopen
    · rw [heq]
      exact h

def after (events : List Event) : Server := events.foldl Event.run start

theorem after_inv {events : List Event} (hfamily : ∀ e ∈ events, e.ofFamily inet4 = true) :
    Inv inet4 (after events) := by
  suffices hgen : ∀ s, Inv inet4 s → Inv inet4 (events.foldl Event.run s) from
    hgen start (start_inv inet4)
  induction events with
  | nil => exact fun s hs => hs
  | cons e events ih =>
    intro s hs
    exact ih (fun e' he' => hfamily e' (mem_cons_of_mem _ he')) _
      (hs.run (hfamily e mem_cons_self))

def Entry.received : Entry → Option (Sockaddr × Bytes)
  | .datagram sa data _ => some (sa, data)
  | _ => none

def Event.received : Event → Option (Sockaddr × Bytes)
  | .datagram sa data => some (sa, data)
  | .close _ => none

theorem opened_received (s : Server) (sa : Sockaddr) :
    (s.opened sa).2.log.filterMap Entry.received = s.log.filterMap Entry.received := by
  cases hconn : s.conns (getUDPNetAddrKey (some sa)) with
  | some c => rw [opened_of_some hconn]
  | none =>
    rw [opened_of_none hconn]
    rw [filterMap_append]
    exact append_nil _

theorem run_received (s : Server) (e : Event) :
    (e.run s).log.filterMap Entry.received =
      s.log.filterMap Entry.received ++ [e].filterMap Event.received := by
  cases e with
  | datagram sa data =>
    change ((s.opened sa).2.log ++ [Entry.datagram sa data _]).filterMap Entry.received = _
    rw [filterMap_append, opened_received]
    rfl
  | close n =>
    change (s.close n).log.filterMap Entry.received = _ ++ []
    rw [append_nil]
    rcases close_eq with ⟨c, -, -, heq⟩ | ⟨-, heq⟩
    · rw [heq]
      change (s.log ++ [Entry.closed n]).filterMap Entry.received = _
      rw [filterMap_append]
      exact append_nil _
    · rw [heq]

theorem after_received (events : List Event) :
    (after events).log.filterMap Entry.received = events.filterMap Event.received := by
  induction events using reverseRecOn with
  | nil => rfl
  | append_singleton events e ih =>
    rw [after, foldl_append, filterMap_append, ← ih]
    exact run_received _ e

/-- Whatever comes from senders of one family, and whatever children are closed: every datagram goes
to a child, for a sender to the same one until that is closed and for different senders to different
ones; `onOpen` has been called once for every child, and before its datagrams; and closing a child
removes its entry and no other. -/
theorem udp_demux (inet4 : Bool) (events : List Event)
    (hfamily : ∀ e ∈ events, e.ofFamily inet4 = true) :
    let s := after events
    s.log.filterMap Entry.received = events.filterMap Event.received ∧
      (∀ pre sa data n mid sa' data' n' post,
        s.log = pre ++ .datagram sa data n :: (mid ++ .datagram sa' data' n' :: post) →
          (sa = sa' → .closed n ∉ mid → n = n') ∧ (sa ≠ sa' → n ≠ n')) ∧
      (∀ n, s.log.count (.onOpen n) = if n < s.children.length then 1 else 0) ∧
      (∀ pre sa data n post, s.log = pre ++ .datagram sa data n :: post → .onOpen n ∈ pre) ∧
      (∀ (n : Nat) (c : Child), s.children[n]? = some c → c.closed = false →
        ∀ key, s.conns key = some n ↔ key = c.rAddrKey) ∧
      ∀ n key, (s.close n).conns key = if s.conns key = some n then none else s.conns key := by
  intro s
  have h : Inv inet4 s := after_inv hfamily
  refine ⟨after_received events, ?_, h.opens, ?_, fun n c hc hopen => h.conns_of_open hc hopen,
    h.close_conns⟩
  · intro pre sa data n mid sa' data' n' post hsplit
    obtain ⟨-, hnot, -, -⟩ := h.sound pre _ _ hsplit
    have hsplit' :
        s.log = (pre ++ .datagram sa data n :: mid) ++ .datagram sa' data' n' :: post := by
      simpa using hsplit
    obtain ⟨-, -, hsame, hother⟩ := h.sound _ _ _ hsplit'
    constructor
    · rintro rfl hmid
      refine hsame data n (by simp) ?_
      simpa using ⟨hnot, hmid⟩
    · rintro hne rfl
      exact hne (hother sa data (by simp))
  · intro pre sa data n post hsplit
    exact (h.sound pre _ _ hsplit).1

/-- Two senders, one of which has its child closed and sends again. -/
theorem udp_demux_reopened :
    let first := Sockaddr.inet4 4000 #v[10, 0, 0, 1]
    let second := Sockaddr.inet4 4000 #v[10, 0, 0, 2]
    let s := after [.datagram first [1], .datagram second [2], .datagram first [3], .close 0,
      .datagram first [4]]
    s.log =
      [.onOpen 0, .datagram first [1] 0, .onOpen 1, .datagram second [2] 1, .datagram first [3] 0,
      .closed 0, .onOpen 2, .datagram first [4] 2] ∧
      ∀ n, s.log.count (.onOpen n) = if n < s.children.length then 1 else 0 := by
  exact ⟨by decide, (udp_demux true _ (by decide)).2.2.1⟩

end Nbio.Net.Udp
