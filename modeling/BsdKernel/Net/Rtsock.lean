import BsdKernel.Lib.Loop
/-!
# Routing messages

The messages of a routing socket: `rt_msg1` builds one in a chain of mbufs with `m_copyback`, `rt_msg2` in a
buffer or for a walk of `sysctl`, and `route_output` takes apart with `rt_xaddrs` what a process writes. A chain is
the list of its mbufs. A write behind the end of a buffer has no result. A `long` has four bytes, the lowest first.
-/

namespace BsdKernel.Rtsock

open Lib
open List (replicate)

def MLEN : Nat := 108
def MHLEN : Nat := 100
def RTAX_MAX : Nat := 8
def RTM_VERSION : UInt8 := 3
def RTM_NEWADDR : Nat := 0xc
def RTM_DELADDR : Nat := 0xd
def RTM_IFINFO : Nat := 0xe

/-- `ROUNDUP`, to a multiple of `sizeof(long)` -/
def ROUNDUP (a : Nat) : Nat := if a > 0 then 1 + ((a - 1) ||| 3) else 4

/-! ## Addresses -/

/-- A `sockaddr`: the memory from its address on, which is read up to `ROUNDUP` of its first byte. -/
structure Sockaddr where
  mem : List UInt8
  readable : ROUNDUP (mem.headD 0).toNat ≤ mem.length

def Sockaddr.sa_len (sa : Sockaddr) : Nat := (sa.mem.headD 0).toNat

/-- What is copied of it. -/
def Sockaddr.image (sa : Sockaddr) : List UInt8 := sa.mem.take (ROUNDUP sa.sa_len)

/-- `rt_addrinfo` -/
structure AddrInfo where
  rti_addrs : Nat
  rti_info : List (Option Sockaddr)
  slots : rti_info.length = RTAX_MAX

/-- The loop of `rt_xaddrs` over the `n` slots from `i` on. An address is its place in `cp`. -/
def xaddrs (addrs : Nat) (cplim : List UInt8) : Nat → Nat → Nat → List (Option Nat)
  | 0, _, _ => []
  | n + 1, i, cp =>
    if cp < cplim.length then
      if addrs.testBit i then some cp :: xaddrs addrs cplim n (i + 1) (cp + ROUNDUP (cplim.getD cp 0).toNat)
      else none :: xaddrs addrs cplim n (i + 1) cp
    else replicate (n + 1) none

/-- `rti_info` as `rt_xaddrs` leaves it. -/
def rtXaddrs (body : List UInt8) (addrs : Nat) : List (Option Nat) := xaddrs addrs body RTAX_MAX 0 0

/-! ## `m_copyback` -/

/-- The answers of the mbuf allocator, and what is left in the `n`th mbuf that it gives. -/
structure Mbufs where
  get : Nat → Bool
  old : Nat → Nat → UInt8

/-- A chain with its `m_pkthdr.len`. -/
structure Packet where
  chain : List (List UInt8)
  len : Nat

/-- The mbufs before `m`, `m` and those behind it; `cp` is what is left to copy. -/
structure Copying where
  before : List (List UInt8)
  m : List UInt8
  rest : List (List UInt8)
  off : Nat
  totlen : Nat
  cp : List UInt8
  asked : Nat

/-- The body of the loop that looks for `off`; the result says whether it was found. -/
def seekStep (mb : Mbufs) (s : Copying) : Copying ⊕ (Bool × Copying) :=
  if s.off > s.m.length then
    let off := s.off - s.m.length
    let totlen := s.totlen + s.m.length
    match s.rest with
    | n :: rest => .inl { s with before := s.before ++ [s.m], m := n, rest := rest, off := off, totlen := totlen }
    | [] =>
      if mb.get s.asked then
        .inl { s with before := s.before ++ [s.m], m := replicate (min MLEN (s.cp.length + off)) 0, off := off, totlen := totlen,
                      asked := s.asked + 1 }
      else .inr (false, { s with off := off, totlen := totlen, asked := s.asked + 1 })
  else .inr (true, s)

/-- The body of the loop that copies. -/
def copyStep (mb : Mbufs) (s : Copying) : Copying ⊕ Copying :=
  if s.cp = [] then .inr s
  else
    let mlen := min (s.m.length - s.off) s.cp.length
    let m := s.m.take s.off ++ s.cp.take mlen ++ s.m.drop (s.off + mlen)
    let cp := s.cp.drop mlen
    let totlen := s.totlen + (mlen + s.off)
    if cp = [] then .inr { s with m := m, cp := cp, off := 0, totlen := totlen }
    else
      match s.rest with
      | n :: rest => .inl { s with before := s.before ++ [m], m := n, rest := rest, cp := cp, off := 0, totlen := totlen }
      | [] =>
        if mb.get s.asked then
          .inl { s with before := s.before ++ [m], m := (List.range (min MLEN cp.length)).map (mb.old s.asked), cp := cp, off := 0,
                        totlen := totlen, asked := s.asked + 1 }
        else .inr { s with m := m, cp := cp, off := 0, totlen := totlen, asked := s.asked + 1 }

/-- `m_copyback` to a chain with a packet header; `asked` mbufs were asked for before. -/
def mCopyback (mb : Mbufs) (asked : Nat) (p : Packet) (off : Nat) (cp : List UInt8) : Option (Packet × Nat) :=
  match p.chain with
  | [] => some (p, asked)
  | m :: rest =>
    let fuel := p.chain.length + off + cp.length + 2
    let out := fun s : Copying => (⟨s.before ++ s.m :: s.rest, max p.len s.totlen⟩, s.asked)
    match loop (seekStep mb) fuel ⟨[], m, rest, off, 0, cp, asked⟩ with
    | none => none
    | some (false, s) => some (out s)
    | some (true, s) => (loop (copyStep mb) fuel s).map out

/-! ## `rt_msg1` -/

/-- The size of the header: `ifa_msghdr`, `if_msghdr` or `rt_msghdr`. -/
def headerLen (type : Nat) : Nat :=
  if type = RTM_DELADDR ∨ type = RTM_NEWADDR then 20
  else if type = RTM_IFINFO then 84
  else 76

/-- The stores to `rtm_msglen`, `rtm_version` and `rtm_type`. -/
def stamp (len type : Nat) (m : List UInt8) : List UInt8 :=
  [UInt8.ofNat len, UInt8.ofNat (len / 256), RTM_VERSION, UInt8.ofNat type] ++ m.drop 4

/-- `rtm_msglen` -/
def msglen (m : List UInt8) : Nat := (m.getD 0 0).toNat + 256 * (m.getD 1 0).toNat

/-- The loop of `rt_msg1` from the slot `i` on. -/
def msg1Slots (mb : Mbufs) : Nat → List (Option Sockaddr) → Nat → Packet → Nat → Nat → Option (Nat × Packet × Nat)
  | _, [], addrs, m, len, _ => some (addrs, m, len)
  | i, none :: l, addrs, m, len, asked => msg1Slots mb (i + 1) l addrs m len asked
  | i, some sa :: l, addrs, m, len, asked =>
    match mCopyback mb asked m len sa.image with
    | none => none
    | some (m, asked) => msg1Slots mb (i + 1) l (addrs ||| 1 <<< i) m (len + ROUNDUP sa.sa_len) asked

/-- `rt_msg1`: the message, if one is returned, and the `rt_addrinfo` as it is left. -/
def rtMsg1 (mb : Mbufs) (type : Nat) (info : AddrInfo) : Option (Option Packet × AddrInfo) :=
  if mb.get 0 = false then some (none, info)
  else
    let len := headerLen type
    if len > MHLEN then none
    else
      match msg1Slots mb 0 info.rti_info info.rti_addrs ⟨[replicate len 0], len⟩ len 1 with
      | none => none
      | some (addrs, m, len) =>
        let info := { info with rti_addrs := addrs }
        if m.len ≠ len then some (none, info)
        else
          match m.chain with
          | [] => none
          | m0 :: rest => some (some ⟨stamp len type m0 :: rest, m.len⟩, info)

/-! ## `rt_msg2` -/

/-- `walkarg`, as far as `rt_msg2` uses it: `w_where` is whether it is not null. -/
structure Walkarg where
  w_needed : Int
  w_where : Bool
  w_tmem : Option (List UInt8)
  w_tmemsize : Nat

/-- `bcopy` into the buffer at `at`. -/
def bcopy (src dst : List UInt8) (place : Nat) : Option (List UInt8) :=
  if place + src.length ≤ dst.length then some (dst.take place ++ src ++ dst.drop (place + src.length)) else none

/-- The loop of `rt_msg2` from the slot `i` on. The buffer is written where there is one: `cp` is `len` bytes behind its start. -/
def msg2Slots : Nat → List (Option Sockaddr) → Nat → Option (List UInt8) → Nat → Option (Nat × Option (List UInt8) × Nat)
  | _, [], addrs, cp, len => some (addrs, cp, len)
  | i, none :: l, addrs, cp, len => msg2Slots (i + 1) l addrs cp len
  | i, some sa :: l, addrs, none, len => msg2Slots (i + 1) l (addrs ||| 1 <<< i) none (len + ROUNDUP sa.sa_len)
  | i, some sa :: l, addrs, some b, len =>
    match bcopy sa.image b len with
    | none => none
    | some b => msg2Slots (i + 1) l (addrs ||| 1 <<< i) (some b) (len + ROUNDUP sa.sa_len)

/-- What `rt_msg2` returns, with `rtinfo`, the buffer behind `cp0` and `w` as they are left. -/
structure Msg2 where
  len : Nat
  info : AddrInfo
  cp0 : Option (List UInt8)
  w : Option Walkarg

/-- From `again` on, with what is stored at the end. -/
def msg2Pass (type : Nat) (info : AddrInfo) (cp : Option (List UInt8)) : Option (Nat × AddrInfo × Option (List UInt8)) :=
  match msg2Slots 0 info.rti_info info.rti_addrs cp (headerLen type) with
  | none => none
  | some (addrs, cp, len) => some (len, { info with rti_addrs := addrs }, cp.map (stamp len type))

/-- The temporary memory of a walk, made larger where it is too small; `malloc` is what is in the new memory. -/
def Walkarg.grow (malloc : Option (Nat → UInt8)) (len : Nat) (w : Walkarg) : Walkarg :=
  if w.w_tmemsize < len then
    match malloc with
    | some f => { w with w_tmem := some ((List.range len).map f), w_tmemsize := len }
    | none => { w with w_tmem := none }
  else w

def rtMsg2 (malloc : Option (Nat → UInt8)) (type : Nat) (info : AddrInfo) (cp : Option (List UInt8)) (w : Option Walkarg) :
    Option Msg2 :=
  match msg2Pass type { info with rti_addrs := 0 } cp with
  | none => none
  | some (len, info, cp0) =>
    match cp, w with
    | none, some w =>
      let w := { w with w_needed := w.w_needed + len }
      if w.w_needed ≤ 0 ∧ w.w_where then
        let w := w.grow malloc len
        match w.w_tmem with
        | some b =>
          match msg2Pass type info (some b) with
          | none => none
          | some (len, info, cp0) => some ⟨len, info, cp0, some { w with w_tmem := cp0 }⟩
        | none => some ⟨len, info, none, some { w with w_where := false }⟩
      else some ⟨len, info, none, some w⟩
    | _, w => some ⟨len, info, cp0, w⟩

/-! ## `route_output` -/

inductive Errno
  | EINVAL
  | ENOBUFS
  | EPROTONOSUPPORT
  deriving DecidableEq

/-- `rtm_addrs` -/
def rtmAddrs (m : List UInt8) : Nat :=
  (m.getD 12 0).toNat + 256 * ((m.getD 13 0).toNat + 256 * ((m.getD 14 0).toNat + 256 * (m.getD 15 0).toNat))

/-- `route_output` up to `rt_xaddrs`: the addresses handed on of the bytes that a process writes. -/
def routeOutput (malloc : Bool) (m : List UInt8) : Except Errno (List (Option Nat)) :=
  if m.length < 4 then .error .ENOBUFS
  else if m.length < headerLen 0 ∨ m.length ≠ msglen m then .error .EINVAL
  else if malloc = false then .error .ENOBUFS
  else if m.getD 2 0 ≠ RTM_VERSION then .error .EPROTONOSUPPORT
  else .ok (rtXaddrs (m.drop (headerLen 0)) (rtmAddrs m))

end BsdKernel.Rtsock
