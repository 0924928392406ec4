import BsdKernel.Lib.Bytes
import Mathlib.Tactic
/-!
# TCP header compression

`sl_compress_tcp` and `sl_uncompress_tcp` of `kern/net/slcompress.c` on the
i386 (`u_short` and `int` in memory are little-endian, the fields of the headers
are in network order).

A header is a memory that starts at 0. Offsets in the IP header: version and
header length 0, `ip_len` 2, `ip_id` 4, `ip_off` 6, `ip_ttl` 8, `ip_p` 9,
`ip_sum` 10, `ip_src` 12, `ip_dst` 16. In the TCP header: ports 0, `th_seq` 4,
`th_ack` 8, `th_off` 12, `th_flags` 13, `th_win` 14, `th_sum` 16, `th_urp` 18.

`MAX_HDR` is `MLEN`, the 108 bytes of an mbuf, and a header may have 120. The
receiver's cstates are memory here, so that a longer header goes into the next
cstate as it does in the kernel; for the sender such a copy overwrites the links
of its list, and the model stops there.
-/

namespace BsdKernel.Slcompress

open BsdKernel.Lib

def MAX_STATES : Nat := 16
def MAX_HDR : Nat := 108

def TYPE_IP : Nat := 0x40
def TYPE_UNCOMPRESSED_TCP : Nat := 0x70
def TYPE_COMPRESSED_TCP : Nat := 0x80

def NEW_C : Byte := 0x40
def NEW_I : Byte := 0x20
def NEW_S : Byte := 0x08
def NEW_A : Byte := 0x04
def NEW_W : Byte := 0x02
def NEW_U : Byte := 0x01
def SPECIAL_I : Byte := NEW_S ||| NEW_W ||| NEW_U
def SPECIAL_D : Byte := NEW_S ||| NEW_A ||| NEW_W ||| NEW_U
def SPECIALS_MASK : Byte := NEW_S ||| NEW_A ||| NEW_W ||| NEW_U
def TCP_PUSH_BIT : Byte := 0x10

def TH_FIN : Byte := 0x01
def TH_SYN : Byte := 0x02
def TH_RST : Byte := 0x04
def TH_PUSH : Byte := 0x08
def TH_ACK : Byte := 0x10
def TH_URG : Byte := 0x20

def IPPROTO_TCP : Byte := 6

/-- `ip->ip_hl`, in words of four bytes. -/
def ipHl (ip : Mem) : Nat := (ip 0 &&& 0x0f).toNat

/-- `th->th_off` of the header at `th`. -/
def thOff (ip : Mem) (th : Int) : Nat := (ip (th + 12) >>> 4).toNat

/-- The `u_short` at `a`. -/
def hostShort (m : Mem) (a : Int) : BitVec 16 := m (a + 1) ++ m a

def setHostShort (m : Mem) (a : Int) (v : BitVec 16) : Mem :=
  set8 (set8 m a (v.extractLsb' 0 8)) (a + 1) (v.extractLsb' 8 8)

/-- `ntohs(cs->cs_ip.ip_len) - hlen`, the data of the last packet. -/
def lastData (hdr : Mem) (hlen : Nat) : BitVec 32 := (get16 hdr 2).setWidth 32 - BitVec.ofNat 32 hlen

/-! ## The sender -/

/-- `ENCODE` -/
def encode (n : BitVec 32) : List Byte :=
  if (n.setWidth 16).toNat ≥ 256 then [0, n.extractLsb' 8 8, n.extractLsb' 0 8] else [n.extractLsb' 0 8]

/-- `ENCODEZ` -/
def encodeZ (n : BitVec 32) : List Byte :=
  if (n.setWidth 16).toNat ≥ 256 ∨ n.setWidth 16 = 0#16 then [0, n.extractLsb' 8 8, n.extractLsb' 0 8]
  else [n.extractLsb' 0 8]

/-- `struct cstate` of the sender. -/
structure Cstate where
  csId : Byte
  csIp : Mem

/-- The sender's part of `struct slcompress`; `tstate` is the circular list from
`last_cs->cs_next` to `last_cs`. -/
structure Transmit where
  tstate : List Cstate
  lastXmit : Byte

def Transmit.init : Transmit :=
  ⟨(List.range MAX_STATES).reverse.map fun i => ⟨BitVec.ofNat 8 i, fun _ => 0⟩, 255⟩

/-- Same addresses and same ports. -/
def sameConn (ip : Mem) (cs : Cstate) : Bool :=
  get32 ip 12 = get32 cs.csIp 12 ∧ get32 ip 16 = get32 cs.csIp 16 ∧
    get32 ip (4 * ipHl ip) = get32 cs.csIp (4 * ipHl cs.csIp)

/-- The search for the connection, with the state used moved to the front;
`false` if it was not found and the oldest state is taken. -/
def findConn (ip : Mem) : List Cstate → Bool × List Cstate
  | [] => (false, [])
  | cs :: rest =>
    if sameConn ip cs then (true, cs :: rest)
    else
      match rest.find? (sameConn ip) with
      | some found => (true, found :: cs :: rest.eraseP (sameConn ip))
      | none => (false, rest.getLastD cs :: (cs :: rest).dropLast)

/-- Only what is expected to change changed. -/
def sameHeader (ip cs : Mem) : Bool :=
  let hl := ipHl ip
  let th : Int := 4 * hl
  get16 ip 0 = get16 cs 0 ∧ get16 ip 6 = get16 cs 6 ∧ get16 ip 8 = get16 cs 8 ∧ thOff ip th = thOff cs th ∧
    (hl > 5 → bytesAt ip 20 (4 * (hl - 5)) = bytesAt cs 20 (4 * (hl - 5))) ∧
    (thOff ip th > 5 → bytesAt ip (th + 20) (4 * (thOff ip th - 5)) = bytesAt cs (th + 20) (4 * (thOff ip th - 5)))

/-- The fields that may change: whether `TH_URG` is set, the urgent pointer, and
the differences to the last packet. -/
structure Deltas where
  urg : Bool
  urp : BitVec 16
  deltaW : BitVec 16
  deltaA : BitVec 32
  deltaS : BitVec 32

def deltas (ip cs : Mem) : Deltas :=
  let th : Int := 4 * ipHl ip
  { urg := ip (th + 13) &&& TH_URG ≠ 0
    urp := get16 ip (th + 18)
    deltaW := get16 ip (th + 14) - get16 cs (th + 14)
    deltaA := get32 ip (th + 8) - get32 cs (th + 8)
    deltaS := get32 ip (th + 4) - get32 cs (th + 4) }

/-- `changes`, one bit a field. -/
def Deltas.changes (d : Deltas) : Byte :=
  (if d.urg then NEW_U else 0) ||| (if d.deltaW ≠ 0 then NEW_W else 0) ||| (if d.deltaA ≠ 0 then NEW_A else 0) |||
    (if d.deltaS ≠ 0 then NEW_S else 0)

/-- `new_seq` -/
def Deltas.newSeq (d : Deltas) : List Byte :=
  (if d.urg then encodeZ (d.urp.setWidth 32) else []) ++
    (if d.deltaW ≠ 0 then encode (d.deltaW.setWidth 32) else []) ++ (if d.deltaA ≠ 0 then encode d.deltaA else []) ++
    (if d.deltaS ≠ 0 then encode d.deltaS else [])

/-- The change mask and `new_seq` for the TCP fields; `none` is `goto
uncompressed`. -/
def changedFields (ip cs : Mem) (hlen : Nat) : Option (Byte × List Byte) :=
  let d := deltas ip cs
  if d.urg = false ∧ get16 ip (4 * ipHl ip + 18) ≠ get16 cs (4 * ipHl ip + 18) then none
  else if d.deltaA > 0xffff then none
  else if d.deltaS > 0xffff then none
  else if d.changes = 0 then
    if get16 ip 2 ≠ get16 cs 2 ∧ (get16 cs 2).toNat = hlen then some (d.changes, d.newSeq) else none
  else if d.changes = SPECIAL_I ∨ d.changes = SPECIAL_D then none
  else if d.changes = NEW_S ||| NEW_A then
    if d.deltaS = d.deltaA ∧ d.deltaS = lastData cs hlen then some (SPECIAL_I, []) else some (d.changes, d.newSeq)
  else if d.changes = NEW_S then
    if d.deltaS = lastData cs hlen then some (SPECIAL_D, []) else some (d.changes, d.newSeq)
  else some (d.changes, d.newSeq)

/-- The bytes a datagram is at, from address 0 on. -/
def memOf (bytes : List Byte) : Mem := fun i => if 0 ≤ i then bytes.getD i.toNat 0 else 0

/-- A compressed packet for a datagram with these changes. -/
def compressed (comp : Transmit) (cs : Cstate) (dgram : List Byte) (compressCid : Bool) (hlen : Nat)
    (changes : Byte) (newSeq : List Byte) : List Byte :=
  let ip := memOf dgram
  let th : Int := 4 * ipHl ip
  let deltaI : BitVec 32 := (get16 ip 4).setWidth 32 - (get16 cs.csIp 4).setWidth 32
  let newSeq := if deltaI ≠ 1 then newSeq ++ encodeZ deltaI else newSeq
  let changes := if deltaI ≠ 1 then changes ||| NEW_I else changes
  let changes := if ip (th + 13) &&& TH_PUSH ≠ 0 then changes ||| TCP_PUSH_BIT else changes
  let start := if compressCid = false ∨ comp.lastXmit ≠ cs.csId then [changes ||| NEW_C, cs.csId] else [changes]
  start ++ [ip (th + 16), ip (th + 17)] ++ newSeq ++ dgram.drop hlen

/-- `sl_compress_tcp` on a datagram in one mbuf: the new state, the type and the
packet. `none` is a header copied over the end of its cstate. -/
def slCompressTcp (comp : Transmit) (dgram : List Byte) (compressCid : Bool) :
    Option (Transmit × Nat × List Byte) :=
  let ip := memOf dgram
  let th : Int := 4 * ipHl ip
  if get16 ip 6 &&& 0x3fff ≠ 0 ∨ dgram.length < 40 then some (comp, TYPE_IP, dgram)
  else if ip (th + 13) &&& (TH_SYN ||| TH_FIN ||| TH_RST ||| TH_ACK) ≠ TH_ACK then some (comp, TYPE_IP, dgram)
  else
    let hlen := 4 * (ipHl ip + thOff ip th)
    match findConn ip comp.tstate with
    | (_, []) => none
    | (found, cs :: rest) =>
      if hlen > MAX_HDR then none
      else
        let tstate := ⟨cs.csId, copy cs.csIp 0 ip 0 hlen⟩ :: rest
        match if found ∧ sameHeader ip cs.csIp then changedFields ip cs.csIp hlen else none with
        | some (changes, newSeq) =>
          some (⟨tstate, cs.csId⟩, TYPE_COMPRESSED_TCP, compressed comp cs dgram compressCid hlen changes newSeq)
        | none => some (⟨tstate, cs.csId⟩, TYPE_UNCOMPRESSED_TCP, dgram.set 9 cs.csId)

/-! ## The receiver -/

/-- The receiver's part of `struct slcompress`, with the memory of `rstate`. -/
structure Receive where
  lastRecv : Byte
  toss : Bool
  rstate : Mem

def Receive.init : Receive := ⟨255, true, fun _ => 0⟩

/-- `sizeof (struct cstate)`. -/
def CSTATE_SIZE : Int := 116

/-- The addresses of `cs_hlen` and `cs_ip` of `rstate[i]`. -/
def csHlenAddr (i : Nat) : Int := 116 * i + 4
def csIpAddr (i : Nat) : Int := 116 * i + 8

def Receive.csHlen (comp : Receive) (i : Nat) : Nat := (hostShort comp.rstate (csHlenAddr i)).toNat

/-- A frame from the line: `*bufp`, the memory it points into and `len`. -/
structure Frame where
  type : Nat
  bufp : Int
  buf : Mem
  len : Nat

/-- What a call leaves: the state, the value returned, the buffer, and the number
of header bytes copied into a cstate. -/
structure Received where
  comp : Receive
  ret : Nat
  bufp : Int
  buf : Mem
  copied : Nat

/-- `bad:` -/
def bad (comp : Receive) (f : Frame) : Received := ⟨{ comp with toss := true }, 0, f.bufp, f.buf, 0⟩

/-- The number at `cp`, and `cp` behind it. -/
def delta (buf : Mem) (cp : Int) : BitVec 16 × Int :=
  if buf cp = 0 then (buf (cp + 1) ++ buf (cp + 2), cp + 3) else ((buf cp).setWidth 16, cp + 1)

/-- The header being rebuilt, and `cp`. -/
structure Decoding where
  hdr : Mem
  cp : Int

/-- `DECODEL` of the field at `a`. -/
def decodeL (buf : Mem) (a : Int) (d : Decoding) : Decoding :=
  ⟨set32 d.hdr a (get32 d.hdr a + (delta buf d.cp).1.setWidth 32), (delta buf d.cp).2⟩

/-- `DECODES` -/
def decodeS (buf : Mem) (a : Int) (d : Decoding) : Decoding :=
  ⟨set16 d.hdr a (get16 d.hdr a + (delta buf d.cp).1), (delta buf d.cp).2⟩

/-- `DECODEU` -/
def decodeU (buf : Mem) (a : Int) (d : Decoding) : Decoding :=
  ⟨set16 d.hdr a (delta buf d.cp).1, (delta buf d.cp).2⟩

/-- `if (changes & bit)` -/
def onBit (changes bit : Byte) (go : Decoding → Decoding) (d : Decoding) : Decoding :=
  if changes &&& bit ≠ 0 then go d else d

/-- The checksum. -/
def decodeSum (buf : Mem) (th : Int) (d : Decoding) : Decoding :=
  ⟨set16 d.hdr (th + 16) (get16 buf d.cp), d.cp + 2⟩

def decodePush (th : Int) (changes : Byte) (d : Decoding) : Decoding :=
  let flags := d.hdr (th + 13)
  let flags := if changes &&& TCP_PUSH_BIT ≠ 0 then flags ||| TH_PUSH else flags &&& ~~~TH_PUSH
  { d with hdr := set8 d.hdr (th + 13) flags }

def decodeUrg (buf : Mem) (th : Int) (changes : Byte) (d : Decoding) : Decoding :=
  let flags := d.hdr (th + 13)
  if changes &&& NEW_U ≠ 0 then decodeU buf (th + 18) { d with hdr := set8 d.hdr (th + 13) (flags ||| TH_URG) }
  else { d with hdr := set8 d.hdr (th + 13) (flags &&& ~~~TH_URG) }

/-- Add to the field at `a`. -/
def advance (a : Int) (n : BitVec 32) (d : Decoding) : Decoding := { d with hdr := set32 d.hdr a (get32 d.hdr a + n) }

/-- The switch on the change mask. -/
def decodeSeq (buf : Mem) (th : Int) (hlen : Nat) (changes : Byte) (d : Decoding) : Decoding :=
  if changes &&& SPECIALS_MASK = SPECIAL_I then
    let i := lastData d.hdr hlen
    advance (th + 4) i (advance (th + 8) i d)
  else if changes &&& SPECIALS_MASK = SPECIAL_D then advance (th + 4) (lastData d.hdr hlen) d
  else
    let d := decodeUrg buf th changes d
    let d := onBit changes NEW_W (decodeS buf (th + 14)) d
    let d := onBit changes NEW_A (decodeL buf (th + 8)) d
    onBit changes NEW_S (decodeL buf (th + 4)) d

def decodeId (buf : Mem) (changes : Byte) (d : Decoding) : Decoding :=
  if changes &&& NEW_I ≠ 0 then decodeS buf 4 d else { d with hdr := set16 d.hdr 4 (get16 d.hdr 4 + 1) }

/-- From the checksum to the IP id; `hlen` is `cs_hlen`. -/
def decode (buf : Mem) (hlen : Nat) (changes : Byte) (d : Decoding) : Decoding :=
  let th : Int := 4 * ipHl d.hdr
  let d := decodeSum buf th d
  let d := decodePush th changes d
  let d := decodeSeq buf th hlen changes d
  decodeId buf changes d

/-- The sum of `n` host words from `a` on. -/
def cksumLoop (m : Mem) (a : Int) : Nat → BitVec 32
  | 0 => 0
  | n + 1 => (hostShort m a).setWidth 32 + cksumLoop m (a + 2) n

/-- The checksum of an IP header of `n` host words at `a`. -/
def cksum (m : Mem) (a : Int) (n : Nat) : BitVec 16 :=
  let changes := cksumLoop m a n
  let changes := (changes &&& 0xffff) + (changes >>> 16)
  let changes := (changes &&& 0xffff) + (changes >>> 16)
  ~~~changes.setWidth 16

/-- A compressed packet for the connection `comp.lastRecv`, from the checksum at
`cp` on. -/
def rebuild (comp : Receive) (f : Frame) (changes : Byte) (cp : Int) : Received :=
  let i := comp.lastRecv.toNat
  let csHlen := comp.csHlen i
  let hdr : Mem := fun j => comp.rstate (csIpAddr i + j)
  let d := decode f.buf csHlen changes ⟨hdr, cp⟩
  let used := (d.cp - f.bufp).toNat
  if f.len < used then bad { comp with rstate := copy comp.rstate (csIpAddr i) d.hdr 0 MAX_HDR } f
  else
    let len := f.len - used
    -- The data move down to a multiple of four.
    let buf := if d.cp % 4 ≠ 0 then copy f.buf (d.cp - d.cp % 4) f.buf d.cp len else f.buf
    let cp := d.cp - d.cp % 4 - csHlen
    let len := len + csHlen
    let rstate := copy comp.rstate (csIpAddr i) (set16 d.hdr 2 (BitVec.ofNat 16 len)) 0 MAX_HDR
    let buf := copy buf cp rstate (csIpAddr i) csHlen
    ⟨{ comp with rstate := rstate }, len, cp, setHostShort buf (cp + 10) (cksum buf cp (2 * ipHl hdr)), 0⟩

/-- `sl_uncompress_tcp`; `none` is an index of `rstate` out of range. -/
def slUncompressTcp (comp : Receive) (f : Frame) : Option Received :=
  if f.type = TYPE_UNCOMPRESSED_TCP then
    let id := f.buf (f.bufp + 9)
    if id.toNat ≥ MAX_STATES then some (bad comp f)
    else
      let i := id.toNat
      let buf := set8 f.buf (f.bufp + 9) IPPROTO_TCP
      let ip : Mem := fun j => buf (f.bufp + j)
      let hlen := 4 * (ipHl ip + thOff ip (4 * ipHl ip))
      let rstate := set16 (copy comp.rstate (csIpAddr i) ip 0 hlen) (csIpAddr i + 10) 0
      some ⟨⟨id, false, setHostShort rstate (csHlenAddr i) (BitVec.ofNat 16 hlen)⟩, f.len, f.bufp, buf, hlen⟩
  else if f.type = TYPE_COMPRESSED_TCP then
    let changes := f.buf f.bufp
    if changes &&& NEW_C ≠ 0 then
      let id := f.buf (f.bufp + 1)
      if id.toNat ≥ MAX_STATES then some (bad comp f)
      else some (rebuild { comp with toss := false, lastRecv := id } f changes (f.bufp + 2))
    else if comp.toss then some ⟨comp, 0, f.bufp, f.buf, 0⟩
    else if comp.lastRecv.toNat < MAX_STATES then some (rebuild comp f changes (f.bufp + 1))
    else none
  else some (bad comp f)

end BsdKernel.Slcompress
