import BsdKernel.Kern.Mbuf
import Mathlib.Tactic
/-!
# Inserting options

The beginning of `ip_output` with `ip_insertoptions` (`inet/ip_output.c`): options that go
with a packet are put between its header and its data, in front of the header in the
same mbuf or in a new one. `ip_insertoptions` stores the new length of the header, but
not on the two ways out on which it gives the packet back without options, and then
`ip_output` goes on with a variable that was never set (`ip_output_iff`).
-/

namespace BsdKernel.InsertOptions

open BsdKernel.Lib BsdKernel.Mbufs

def IP_MAXPACKET : Nat := 65535

def IPVERSION : BitVec 8 := 4

/-- `domaininit` -/
def max_linkhdr : Int := 16

def MT_HEADER : Int := 2

/-- `struct ipoption` in its mbuf: the first hop, if it is not zero, and the options. -/
structure Ipoption where
  dst : BitVec 32
  list : List Byte
  short : list.length ≤ 40

/-! ## The header in memory -/

/-- `(u_short)ip->ip_len`, in host order. -/
def lenAt (mem : Mem) (a : Int) : Nat := (mem (a + 3) ++ mem (a + 2) : BitVec 16).toNat

def setLen (mem : Mem) (a : Int) (v : BitVec 16) : Mem :=
  set8 (set8 mem (a + 2) (v.extractLsb' 0 8)) (a + 3) (v.extractLsb' 8 8)

/-- `ip->ip_hl` -/
def hlAt (mem : Mem) (a : Int) : Nat := (mem a &&& 0xf).toNat

def setHl (mem : Mem) (a : Int) (v : BitVec 8) : Mem := set8 mem a (mem a &&& 0xf0 ||| v &&& 0xf)

def ipLen (m : Mbuf) : Nat := lenAt m.mem m.data

def ipHl (m : Mbuf) : Nat := hlAt m.mem m.data

/-! ## The code -/

section Code
variable (m : Mbuf) (ms : List Mbuf) (p : Ipoption)

/-- The end of `ip_insertoptions`, with room for the options behind the header. -/
def putOptions : Mbuf :=
  poke m fun mem =>
    let mem := putBytes mem (m.data + 20) p.list
    setLen mem m.data (.ofNat 16 (lenAt mem m.data + p.list.length))

/-- The first hop is the destination. -/
def storeDst : Mbuf := if p.dst ≠ 0 then poke m fun mem => set32 mem (m.data + 16) p.dst else m

/-- The header moves to the front to make room. -/
def prepend : Mbuf :=
  let n := { m with data := m.data - p.list.length, len := m.len + p.list.length,
                    pkthdr := { m.pkthdr with len := m.pkthdr.len + p.list.length } }
  poke n fun mem => copy mem n.data mem m.data 20

/-- The header in an mbuf of its own. -/
def newHeader (raw : Mbuf) : Mbuf :=
  let n := MGETHDR raw MT_HEADER
  let n := { n with pkthdr := { n.pkthdr with len := m.pkthdr.len + p.list.length } }
  let n := { n with len := p.list.length + 20, data := n.data + max_linkhdr }
  poke n fun mem => copy mem n.data m.mem m.data 20

/-- `ip_insertoptions`, where `alloc` is what `MGETHDR` gets: what is stored through `phlen`, and
the packet. -/
def ipInsertoptions (alloc : Option Mbuf) : Option Int × Mbuf × List Mbuf :=
  let optlen : Int := p.list.length
  if p.list.length + ipLen m > IP_MAXPACKET then (none, m, ms)
  else
    let m := storeDst m p
    if m.flags.ext ∨ m.data - optlen < pktdat then
      match alloc with
      | none => (none, m, ms)
      | some raw => (some (20 + optlen), putOptions (newHeader m p raw) p, { m with len := m.len - 20, data := m.data + 20 } :: ms)
    else (some (20 + optlen), putOptions (prepend m p) p, ms)

/-- What `ip_output` stores in the header of a packet that is not forwarded. -/
def fillHeader (hlen : Int) (id : BitVec 16) : Mbuf :=
  poke m fun mem =>
    let mem := set8 mem m.data (IPVERSION <<< 4 ||| mem m.data &&& 0xf)
    let mem := set8 (set8 mem (m.data + 6) 0) (m.data + 7) (mem (m.data + 7) &&& 0x40)
    let mem := set16 mem (m.data + 4) id
    setHl mem m.data (.ofInt 8 (hlen / 4))

/-- `ip_output` up to the route: `hlen` and the packet. `junk` is what the variable `len`
holds, which is not set. -/
def ipOutput (opt : Option Ipoption) (forwarding : Bool) (alloc : Option Mbuf) (junk : Int) (id : BitVec 16) : Int × Mbuf × List Mbuf :=
  let (hlen, m, ms) :=
    match opt with
    | none => (20, m, ms)
    | some p => ((ipInsertoptions m ms p alloc).1.getD junk, (ipInsertoptions m ms p alloc).2)
  if forwarding then (ipHl m * 4, m, ms) else (hlen, fillHeader m hlen id, ms)

end Code

/-! ## The packet before and after -/

/-- A packet with its header in the first mbuf, which is `hdr` bytes long. -/
structure Packet where
  m : Mbuf
  ms : List Mbuf
  hdr : Nat
  ok : m.Ok
  pkthdr : m.flags.pkthdr = true
  header : 20 ≤ hdr ∧ (hdr : Int) ≤ m.len

namespace Packet
variable (p : Packet)

def bytes : List Byte := Mbufs.bytes (p.m :: p.ms)

/-- What is behind the header. -/
def payload : List Byte := p.bytes.drop p.hdr

/-- Both lengths are those of the chain. -/
def Sound : Prop := ipLen p.m = p.bytes.length ∧ p.m.pkthdr.len = p.bytes.length

/-- `ip_insertoptions` puts the options in. -/
def Inserted (o : Ipoption) (alloc : Option Mbuf) : Prop :=
  o.list.length + ipLen p.m ≤ IP_MAXPACKET ∧
    (alloc.isSome = true ∨ (p.m.flags.ext = false ∧ pktdat ≤ p.m.data - o.list.length))

instance : Decidable p.Sound := inferInstanceAs (Decidable (_ ∧ _))

instance (o : Ipoption) (alloc : Option Mbuf) : Decidable (p.Inserted o alloc) := inferInstanceAs (Decidable (_ ∧ _))

/-- What is to be shown of `hlen` and the packet that `ip_output` goes on with. -/
structure Agrees (opt : Option Ipoption) (alloc : Option Mbuf) (r : Int × Mbuf × List Mbuf) : Prop where
  header : ∃ h, Mbufs.bytes (r.2.1 :: r.2.2) = h ++ p.payload ∧ (h.length : Int) = r.1
  hl : (ipHl r.2.1 : Int) * 4 = r.1
  len : ipLen r.2.1 = (Mbufs.bytes (r.2.1 :: r.2.2)).length
  pkthdrLen : r.2.1.pkthdr.len = (Mbufs.bytes (r.2.1 :: r.2.2)).length
  short : (Mbufs.bytes (r.2.1 :: r.2.2)).length ≤ IP_MAXPACKET
  unchanged : ∀ o, opt = some o → ¬p.Inserted o alloc → r.1 = 20

/-- The lengths are right, and: without options the header has the length that `ip_output`
takes it for; with options, they are put in and their length is a multiple of 4, or the variable
that is not set happens to be 20. -/
def Fits (opt : Option Ipoption) (forwarding : Bool) (alloc : Option Mbuf) (junk : Int) : Prop :=
  p.Sound ∧
    match opt with
    | none => p.hdr = if forwarding then ipHl p.m * 4 else 20
    | some o =>
      if p.Inserted o alloc then
        if forwarding then p.hdr + o.list.length = ipHl p.m * 4 else p.hdr = 20 ∧ 4 ∣ o.list.length
      else p.hdr = 20 ∧ if forwarding then ipHl p.m = 5 else junk = 20

end Packet

/-! ## Memory -/

section Memory
variable {m : Mbuf} {f : Mem → Mem} {mem : Mem} {a i : Int} {l : List Byte}

theorem lenAt_congr {mem' : Mem} {a' : Int} (h₂ : mem' (a' + 2) = mem (a + 2)) (h₃ : mem' (a' + 3) = mem (a + 3)) :
    lenAt mem' a' = lenAt mem a := by
  rw [lenAt, lenAt, h₂, h₃]

theorem lenAt_lt (mem : Mem) (a : Int) : lenAt mem a < 2 ^ 16 := BitVec.isLt _

theorem lenAt_setLen {n : Nat} (h : n < 2 ^ 16) : lenAt (setLen mem a (.ofNat 16 n)) a = n := by
  have hne : a + 2 ≠ a + 3 := by omega
  rw [lenAt, setLen, set8_same, set8_ne hne, set8_same]
  rw [show (BitVec.ofNat 16 n).extractLsb' 8 8 ++ (BitVec.ofNat 16 n).extractLsb' 0 8 = BitVec.ofNat 16 n from
    BitVec.extractLsb'_append_extractLsb' (w := 8)]
  rw [BitVec.toNat_ofNat, Nat.mod_eq_of_lt h]

theorem setLen_out {v : BitVec 16} (h : i < a + 2 ∨ a + 4 ≤ i) : setLen mem a v i = mem i := by
  rw [setLen, set8_ne (by omega), set8_ne (by omega)]

/-- The bytes of an mbuf from its 20th on. -/
theorem drop_header (h : 20 ≤ m.len) : m.bytes.drop 20 = bytesAt m.mem (m.data + 20) (m.len - 20).toNat := by
  have hlen : m.len.toNat = 20 + (m.len - 20).toNat := by omega
  rw [Mbuf.bytes, hlen, bytesAt_add, List.drop_left' bytesAt_length]
  rfl

end Memory

/-! ## Growing headers -/

/-- The packet `n :: ns` is `m :: ms` with `k` bytes more behind the first 20. -/
structure Grown (k : Nat) (m : Mbuf) (ms : List Mbuf) (n : Mbuf) (ns : List Mbuf) : Prop where
  header : 20 ≤ n.len
  drop : (bytes (n :: ns)).drop (20 + k) = (bytes (m :: ms)).drop 20
  length : (bytes (n :: ns)).length = (bytes (m :: ms)).length + k
  len : ipLen n = ipLen m + k
  hl : ipHl n = ipHl m
  pkthdr : n.pkthdr.len = m.pkthdr.len + k

section Grown
variable {m n : Mbuf} {ms ns : List Mbuf} {f : Mem → Mem} {p : Ipoption} {k : Nat}

theorem Grown.refl (h : 20 ≤ m.len) (ms : List Mbuf) : Grown 0 m ms m ms :=
  ⟨h, rfl, rfl, rfl, rfl, by omega⟩

theorem bytes_drop (h : 20 ≤ n.len) : (bytes (n :: ns)).drop 20 = n.bytes.drop 20 ++ bytes ns := by
  rw [bytes_cons, List.drop_append_of_le_length]
  rw [length_bytes]
  omega

/-- A change to the first 20 bytes of the data that keeps the length. -/
theorem grown_poke (ms : List Mbuf) (h : 20 ≤ m.len) (hout : ∀ i, m.data + 20 ≤ i → f m.mem i = m.mem i)
    (hlen : lenAt (f m.mem) m.data = ipLen m) :
    20 ≤ (poke m f).len ∧ (bytes (poke m f :: ms)).drop 20 = (bytes (m :: ms)).drop 20 ∧
      (bytes (poke m f :: ms)).length = (bytes (m :: ms)).length ∧ ipLen (poke m f) = ipLen m ∧
      (poke m f).pkthdr.len = m.pkthdr.len := by
  have hp : 20 ≤ (poke m f).len := by
    rw [poke_len]
    exact h
  refine ⟨hp, ?_, ?_, ?_, by rw [poke_pkthdr]⟩
  · rw [bytes_drop hp, bytes_drop h, drop_header hp, drop_header h, poke_mem, poke_data, poke_len]
    exact congrArg (· ++ bytes ms) (bytesAt_congr fun i _ => hout _ (by omega))
  · simp only [bytes_cons, List.length_append, length_bytes, poke_len]
  · rw [ipLen, poke_mem, poke_data, hlen]

theorem grown_dst (h : 20 ≤ m.len) (ms : List Mbuf) (v : BitVec 32) :
    Grown 0 m ms (poke m fun mem => set32 mem (m.data + 16) v) ms := by
  obtain ⟨hp, hdrop, hlength, hlen, hpkt⟩ := grown_poke (m := m) (f := fun mem => set32 mem (m.data + 16) v) ms h
    (fun i hi => set32_ne (by omega))
    (lenAt_congr (set32_ne (by omega)) (set32_ne (by omega)))
  refine ⟨hp, hdrop, hlength, hlen, ?_, by omega⟩
  simp only [ipHl, poke_mem, poke_data, hlAt]
  rw [set32_ne (by omega)]

/-- Putting the options behind a header. -/
theorem putOptions_spec (ns : List Mbuf) (p : Ipoption) (h : 20 + p.list.length ≤ n.len) (hlen : ipLen n + p.list.length < 2 ^ 16) :
    (bytes (putOptions n p :: ns)).drop (20 + p.list.length) =
        bytesAt n.mem (n.data + 20 + p.list.length) (n.len - 20 - p.list.length).toNat ++ bytes ns ∧
      (putOptions n p).len = n.len ∧ (putOptions n p).pkthdr = n.pkthdr ∧
      ipLen (putOptions n p) = ipLen n + p.list.length ∧ ipHl (putOptions n p) = ipHl n := by
  have hl : (putOptions n p).len = n.len := poke_len
  have hd : (putOptions n p).data = n.data := poke_data
  have hm : (putOptions n p).mem = setLen (putBytes n.mem (n.data + 20) p.list) n.data
      (.ofNat 16 (lenAt (putBytes n.mem (n.data + 20) p.list) n.data + p.list.length)) := poke_mem
  have hsame : lenAt (putBytes n.mem (n.data + 20) p.list) n.data = ipLen n :=
    lenAt_congr (putBytes_out (by omega)) (putBytes_out (by omega))
  refine ⟨?_, hl, poke_pkthdr, ?_, ?_⟩
  · have hsplit : n.len.toNat = 20 + p.list.length + (n.len - 20 - p.list.length).toNat := by omega
    rw [bytes_cons, List.drop_append_of_le_length (by rw [length_bytes, hl]; omega), Mbuf.bytes, hl, hd, hsplit, bytesAt_add,
      List.drop_left' bytesAt_length, hm]
    refine congrArg (· ++ bytes ns) (bytesAt_congr fun i _ => ?_)
    rw [setLen_out (by omega), putBytes_out (by omega)]
    congr 1
    omega
  · rw [ipLen, hm, hd, hsame, lenAt_setLen hlen]
  · rw [ipHl, ipHl, hm, hd, hlAt, hlAt, setLen_out (by omega), putBytes_out (by omega)]

theorem storeDst_grown (h : 20 ≤ m.len) (ms : List Mbuf) (p : Ipoption) : Grown 0 m ms (storeDst m p) ms := by
  unfold storeDst
  split
  · exact grown_dst h ms p.dst
  · exact .refl h ms

theorem storeDst_same : (storeDst m p).flags = m.flags ∧ (storeDst m p).data = m.data := by
  unfold storeDst
  split
  · exact ⟨poke_flags, poke_data⟩
  · exact ⟨rfl, rfl⟩

theorem copied_header (hcopy : ∀ j : Int, 0 ≤ j → j < 20 → n.mem (n.data + j) = m.mem (m.data + j)) :
    ipLen n = ipLen m ∧ ipHl n = ipHl m := by
  have h₀ := hcopy 0 (by omega) (by omega)
  rw [Int.add_zero, Int.add_zero] at h₀
  refine ⟨lenAt_congr (hcopy 2 (by omega) (by omega)) (hcopy 3 (by omega) (by omega)), ?_⟩
  rw [ipHl, ipHl, hlAt, hlAt, h₀]

/-- Options in front of a header in the same mbuf. -/
theorem prepend_grown (h : 20 ≤ m.len) (ms : List Mbuf) (hlen : ipLen m + p.list.length < 2 ^ 16) :
    Grown p.list.length m ms (putOptions (prepend m p) p) ms := by
  have hn : (prepend m p).len = m.len + p.list.length := poke_len
  have hd : (prepend m p).data = m.data - p.list.length := poke_data
  have hm : (prepend m p).mem = copy m.mem (m.data - p.list.length) m.mem m.data 20 := poke_mem
  have hp : (prepend m p).pkthdr.len = m.pkthdr.len + p.list.length := by
    rw [prepend, poke_pkthdr]
  obtain ⟨hlen', hhl⟩ := copied_header (m := m) (n := prepend m p) fun j h₀ h₁ => by
    rw [hm, hd]
    exact copy_in h₀ (by omega)
  obtain ⟨hdrop, hl, hpkt, hil, hih⟩ := putOptions_spec (n := prepend m p) ms p (by omega) (by omega)
  refine ⟨by omega, ?_, ?_, by omega, hih.trans hhl, by rw [hpkt, hp]⟩
  · rw [hdrop, bytes_drop h, drop_header h, hm, hd, hn]
    rw [show m.len + (p.list.length : Int) - 20 - p.list.length = m.len - 20 by omega]
    refine congrArg (· ++ bytes ms) (bytesAt_congr fun i _ => ?_)
    rw [copy_out (by omega)]
    congr 1
    omega
  · simp only [bytes_cons, List.length_append, length_bytes, hl, hn]
    omega

theorem newHeader_grown (h : 20 ≤ m.len) (ms : List Mbuf) (hlen : ipLen m + p.list.length < 2 ^ 16) (raw : Mbuf) :
    Grown p.list.length m ms (putOptions (newHeader m p raw) p) ({ m with len := m.len - 20, data := m.data + 20 } :: ms) := by
  have hn : (newHeader m p raw).len = p.list.length + 20 := poke_len
  have hp : (newHeader m p raw).pkthdr.len = m.pkthdr.len + p.list.length := by
    rw [newHeader, poke_pkthdr]
  obtain ⟨hlen', hhl⟩ := copied_header (m := m) (n := newHeader m p raw) fun j h₀ h₁ => by
    rw [newHeader, poke_mem, poke_data]
    exact copy_in h₀ (by omega)
  obtain ⟨hdrop, hl, hpkt, hil, hih⟩ :=
    putOptions_spec (n := newHeader m p raw) ({ m with len := m.len - 20, data := m.data + 20 } :: ms) p (by omega) (by omega)
  refine ⟨by omega, ?_, ?_, by omega, hih.trans hhl, by rw [hpkt, hp]⟩
  · -- nothing of the new mbuf is behind the options
    have hzero : (newHeader m p raw).len - 20 - (p.list.length : Int) = 0 := by omega
    rw [hdrop, hzero, bytes_drop h, drop_header h, bytes_cons]
    rfl
  · simp only [bytes_cons, List.length_append, length_bytes, hl, hn]
    omega

/-- A packet whose options are put in, and one whose options are not. -/
theorem ipInsertoptions_spec (q : Packet) (o : Ipoption) (alloc : Option Mbuf) :
    (q.Inserted o alloc ∧ ∃ n ns, ipInsertoptions q.m q.ms o alloc = (some (20 + (o.list.length : Int)), n, ns) ∧
        Grown o.list.length q.m q.ms n ns) ∨
      (¬q.Inserted o alloc ∧ ∃ n ns, ipInsertoptions q.m q.ms o alloc = (none, n, ns) ∧ Grown 0 q.m q.ms n ns) := by
  have h20 : 20 ≤ q.m.len := by
    have := q.header
    omega
  by_cases hbig : o.list.length + ipLen q.m > IP_MAXPACKET
  · refine .inr ⟨fun hin => absurd hin.1 (by omega), q.m, q.ms, ?_, .refl h20 q.ms⟩
    simp only [ipInsertoptions, if_pos hbig]
  · have hw := storeDst_grown h20 q.ms o
    obtain ⟨hflags, hdata⟩ := storeDst_same (m := q.m) (p := o)
    have hsum : ipLen (storeDst q.m o) + o.list.length < 2 ^ 16 := by
      rw [hw.len]
      unfold IP_MAXPACKET at hbig
      omega
    have hcompose : ∀ n ns, Grown o.list.length (storeDst q.m o) q.ms n ns → Grown o.list.length q.m q.ms n ns := by
      intro n ns hg
      exact ⟨hg.header, hg.drop.trans hw.drop, by rw [hg.length, hw.length]; rfl, by rw [hg.len, hw.len]; rfl,
        hg.hl.trans hw.hl, by rw [hg.pkthdr, hw.pkthdr]; omega⟩
    have hroom : ((storeDst q.m o).flags.ext = true ∨ (storeDst q.m o).data - o.list.length < pktdat) ↔
        ¬(q.m.flags.ext = false ∧ pktdat ≤ q.m.data - o.list.length) := by
      rw [hflags, hdata, not_and_or, Bool.not_eq_false, Int.not_le]
    simp only [ipInsertoptions, if_neg hbig]
    by_cases hnew : (storeDst q.m o).flags.ext = true ∨ (storeDst q.m o).data - o.list.length < pktdat
    · rw [if_pos hnew]
      cases alloc with
      | none => exact .inr ⟨fun hin => hroom.1 hnew (hin.2.resolve_left (by simp)), _, _, rfl, hw⟩
      | some raw =>
        exact .inl ⟨⟨Nat.le_of_not_gt hbig, .inl rfl⟩, _, _, rfl, hcompose _ _ (newHeader_grown hw.header q.ms hsum raw)⟩
    · rw [if_neg hnew]
      exact .inl ⟨⟨Nat.le_of_not_gt hbig, .inr (not_not.1 fun hno => hnew (hroom.2 hno))⟩, _, _, rfl,
        hcompose _ _ (prepend_grown hw.header q.ms hsum)⟩

/-- Filling the header in. -/
theorem fillHeader_spec (h : 20 ≤ n.len) (ns : List Mbuf) (hlen : Int) (id : BitVec 16) :
    20 ≤ (fillHeader n hlen id).len ∧ (bytes (fillHeader n hlen id :: ns)).drop 20 = (bytes (n :: ns)).drop 20 ∧
      (bytes (fillHeader n hlen id :: ns)).length = (bytes (n :: ns)).length ∧ ipLen (fillHeader n hlen id) = ipLen n ∧
      (fillHeader n hlen id).pkthdr.len = n.pkthdr.len ∧ (ipHl (fillHeader n hlen id) : Int) = hlen / 4 % 16 := by
  have hpoke := grown_poke ns h (f := fun mem =>
    let mem := set8 mem n.data (IPVERSION <<< 4 ||| mem n.data &&& 0xf)
    let mem := set8 (set8 mem (n.data + 6) 0) (n.data + 7) (mem (n.data + 7) &&& 0x40)
    let mem := set16 mem (n.data + 4) id
    setHl mem n.data (.ofInt 8 (hlen / 4)))
    (fun i hi => by
      simp only [setHl]
      rw [set8_ne (by omega), set16_ne (by omega), set8_ne (by omega), set8_ne (by omega), set8_ne (by omega)])
    (by
      refine lenAt_congr ?_ ?_ <;> simp only [setHl]
      all_goals rw [set8_ne (by omega), set16_ne (by omega), set8_ne (by omega), set8_ne (by omega), set8_ne (by omega)])
  obtain ⟨h20, hdrop, hlength, hil, hpkt⟩ := hpoke
  refine ⟨h20, hdrop, hlength, hil, hpkt, ?_⟩
  have hnibble : ∀ x v : BitVec 8, ((x &&& 0xf0 ||| v &&& 0xf) &&& 0xf) = v &&& 0xf := by
    intro x v
    ext i hi
    interval_cases i <;> simp
  have hmask : ∀ v : BitVec 8, (v &&& 0xf).toNat = v.toNat % 16 := by
    intro v
    rw [BitVec.toNat_and]
    exact Nat.and_two_pow_sub_one_eq_mod v.toNat 4
  rw [fillHeader, ipHl, poke_mem, poke_data]
  simp only [setHl, hlAt, set8_same, hnibble, hmask, BitVec.toNat_ofInt]
  omega

end Grown

/-! ## The call -/

section Call
variable {q : Packet} {n : Mbuf} {ns : List Mbuf} {opt : Option Ipoption} {alloc : Option Mbuf} {k : Nat} {hlen : Int}

/-- What is left to be compared, of a packet that has grown by `k` bytes. -/
theorem agrees_iff (hdrop : (bytes (n :: ns)).drop (20 + k) = q.bytes.drop 20)
    (hlength : (bytes (n :: ns)).length = q.bytes.length + k) (hil : ipLen n = ipLen q.m + k)
    (hpkt : n.pkthdr.len = q.m.pkthdr.len + k) :
    q.Agrees opt alloc (hlen, n, ns) ↔
      q.Sound ∧ (q.hdr + k : Int) = hlen ∧ (ipHl n : Int) * 4 = hlen ∧ ∀ o, opt = some o → ¬q.Inserted o alloc → hlen = 20 := by
  have hhdr := q.header
  have hlt := lenAt_lt n.mem n.data
  have hq : (q.hdr : Int) ≤ q.bytes.length := by
    rw [Packet.bytes, bytes_cons, List.length_append, length_bytes]
    omega
  have hpayload : (bytes (n :: ns)).drop (q.hdr + k) = q.payload := by
    have hsplit : q.hdr + k = 20 + k + (q.hdr - 20) := by omega
    have hsplit' : q.hdr = 20 + (q.hdr - 20) := by omega
    rw [Packet.payload, hsplit, ← List.drop_drop, hdrop, List.drop_drop, ← hsplit']
  have hheader : (∃ h, bytes (n :: ns) = h ++ q.payload ∧ (h.length : Int) = hlen) ↔ (q.hdr + k : Int) = hlen := by
    constructor
    · rintro ⟨h, hb, rfl⟩
      have := congrArg List.length hb
      rw [hlength, List.length_append, Packet.payload, List.length_drop] at this
      omega
    · rintro rfl
      refine ⟨(bytes (n :: ns)).take (q.hdr + k), ?_, ?_⟩
      · rw [← hpayload, List.take_append_drop]
      · rw [List.length_take, hlength]
        omega
  constructor
  · rintro ⟨hh, hhl, hl, hp, -, hun⟩
    simp only at hh hhl hl hp hun
    exact ⟨⟨by omega, by omega⟩, hheader.1 hh, hhl, hun⟩
  · rintro ⟨⟨hl, hp⟩, hh, hhl, hun⟩
    refine ⟨hheader.2 hh, hhl, ?_, ?_, ?_, hun⟩
    · simp only
      omega
    · simp only
      omega
    · have : ipLen n < 2 ^ 16 := hlt
      simp only [IP_MAXPACKET]
      omega

theorem agrees_grown (hg : Grown k q.m q.ms n ns) (forwarding : Bool) (id : BitVec 16) :
    q.Agrees opt alloc (if forwarding then (ipHl n * 4, n, ns) else (hlen, fillHeader n hlen id, ns)) ↔
      q.Sound ∧ (if forwarding then q.hdr + k = ipHl q.m * 4 else (q.hdr + k : Int) = hlen ∧ hlen / 4 % 16 * 4 = hlen) ∧
        ∀ o, opt = some o → ¬q.Inserted o alloc → (if forwarding then (ipHl q.m * 4 : Int) else hlen) = 20 := by
  cases forwarding with
  | true =>
    rw [if_pos rfl, agrees_iff hg.drop hg.length hg.len hg.pkthdr, hg.hl]
    simp only [if_true, true_and]
    refine and_congr_right fun _ => and_congr_left fun _ => ?_
    omega
  | false =>
    obtain ⟨-, hdrop, hlength, hil, hpkt, hhl⟩ := fillHeader_spec hg.header ns hlen id
    have hdrop' : (bytes (fillHeader n hlen id :: ns)).drop (20 + k) = q.bytes.drop 20 := by
      rw [← List.drop_drop, hdrop, List.drop_drop]
      exact hg.drop
    rw [if_neg (by simp), agrees_iff hdrop' (hlength.trans hg.length) (hil.trans hg.len) (hpkt.trans hg.pkthdr), hhl]
    simp only [Bool.false_eq_true, if_false, and_assoc]

/-- The lengths agree exactly where `Fits` holds. -/
theorem ip_output_iff (q : Packet) (opt : Option Ipoption) (forwarding : Bool) (alloc : Option Mbuf) (junk : Int)
    (id : BitVec 16) :
    q.Agrees opt alloc (ipOutput q.m q.ms opt forwarding alloc junk id) ↔ q.Fits opt forwarding alloc junk := by
  have hhdr := q.header
  cases opt with
  | none =>
    have hg := Grown.refl (show 20 ≤ q.m.len by omega) q.ms
    simp only [ipOutput, Packet.Fits]
    rw [agrees_grown hg]
    refine and_congr_right fun _ => ?_
    cases forwarding with
    | true => simp
    | false =>
      simp only [Bool.false_eq_true, if_false, reduceCtorEq, implies_true, and_true]
      omega
  | some o =>
    have hshort := o.short
    simp only [ipOutput, Packet.Fits]
    rcases ipInsertoptions_spec q o alloc with ⟨hin, n, ns, he, hg⟩ | ⟨hno, n, ns, he, hg⟩
    · simp only [he, if_pos hin, Option.getD_some]
      rw [agrees_grown hg]
      refine and_congr_right fun _ => ?_
      simp only [Option.some.injEq, forall_eq', hin, not_true, false_imp_iff, and_true]
      cases forwarding with
      | true => simp
      | false =>
        simp only [Bool.false_eq_true, if_false]
        omega
    · simp only [he, if_neg hno, Option.getD_none]
      rw [agrees_grown hg]
      refine and_congr_right fun _ => ?_
      simp only [Option.some.injEq, forall_eq', hno, not_false_eq_true, true_imp_iff]
      cases forwarding with
      | true =>
        simp only [if_true]
        omega
      | false =>
        simp only [Bool.false_eq_true, if_false]
        omega

end Call

/-- A packet of its header alone, in an mbuf without room before it. -/
def bare : Packet where
  m := { flags := ⟨false, true, false, false, false⟩, type := MT_HEADER, pkthdr := ⟨0, 20⟩,
         dat := fun i => if i = 8 then 0x45 else if i = 10 then 20 else 0, ext := ⟨0, fun _ => 0, 0⟩, data := pktdat, len := 20 }
  ms := []
  hdr := 20
  ok := ⟨by decide, by decide, by decide⟩
  pkthdr := rfl
  header := by decide

/-- Four bytes of `IPOPT_NOP`. -/
def nops : Ipoption := ⟨0, [1, 1, 1, 1], by decide⟩

/-- Without an mbuf for the options, the length of the header is what the variable held. -/
theorem ip_output_unset :
    bare.Sound ∧ ¬bare.Inserted nops none ∧ (ipOutput bare.m bare.ms (some nops) false none 7 0).1 = 7 ∧
      ¬bare.Agrees (some nops) none (ipOutput bare.m bare.ms (some nops) false none 7 0) := by
  have hno : ¬bare.Inserted nops none := by decide
  have hlen : (ipOutput bare.m bare.ms (some nops) false none 7 0).1 = 7 := rfl
  refine ⟨by decide, hno, hlen, fun hagrees => ?_⟩
  have := hagrees.unchanged nops rfl hno
  rw [hlen] at this
  cases this

end BsdKernel.InsertOptions
