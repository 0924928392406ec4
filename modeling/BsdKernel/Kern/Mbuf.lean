import BsdKernel.Lib.Bytes
/-!
# Mbufs

The mbufs of `sys/mbuf.h` with their storage, for the routines of
`kern/uipc_mbuf.c` that move bytes between them. A chain is the list of its mbufs
through `m_next`, and `[]` is the null pointer. `m_data` is an offset, in the
cluster if `M_EXT` is set and else in `m_dat`. What an mbuf of `MGET` holds
before it is written to is arbitrary.

Clusters are only read here; their reference counts and `m_nextpkt` are left out.
-/

namespace BsdKernel.Mbufs

open BsdKernel.Lib

/-- `MSIZE - sizeof(struct m_hdr)`. -/
def MLEN : Int := 108

/-- `MLEN - sizeof(struct pkthdr)`. -/
def MHLEN : Int := 100

def MCLBYTES : Int := 1024

/-- `m_flags`. -/
structure Flags where
  ext : Bool
  pkthdr : Bool
  eor : Bool
  bcast : Bool
  mcast : Bool
  deriving DecidableEq, Repr

structure Pkthdr where
  rcvif : Nat
  len : Int
  deriving DecidableEq, Repr

/-- `m_ext`, with the bytes of the cluster at `ext_buf`. -/
structure Ext where
  buf : Nat
  bytes : Mem
  size : Int

structure Mbuf where
  flags : Flags
  type : Int
  pkthdr : Pkthdr
  dat : Mem
  ext : Ext
  data : Int
  len : Int

/-- What `m_data` points into. -/
def Mbuf.mem (m : Mbuf) : Mem := if m.flags.ext then m.ext.bytes else m.dat

/-- The data of an mbuf. -/
def Mbuf.bytes (m : Mbuf) : List Byte := bytesAt m.mem m.data m.len.toNat

/-- The data of a chain. -/
def bytes (ms : List Mbuf) : List Byte := ms.flatMap Mbuf.bytes

/-- `m_pktdat - m_dat`. -/
def pktdat : Int := MLEN - MHLEN

/-- Where the storage of an mbuf starts; `m_pkthdr` lies in `m_dat`. -/
def Mbuf.low (m : Mbuf) : Int := if m.flags.ext then 0 else if m.flags.pkthdr then pktdat else 0

/-- Where it ends. -/
def Mbuf.high (m : Mbuf) : Int := if m.flags.ext then MCLBYTES else MLEN

/-- The data of an mbuf is inside its storage. -/
structure Mbuf.Ok (m : Mbuf) : Prop where
  len : 0 ≤ m.len
  low : m.low ≤ m.data
  high : m.data + m.len ≤ m.high

/-- The mbufs of a chain are all such. -/
def Chain (ms : List Mbuf) : Prop := ∀ m ∈ ms, m.Ok

/-! ## Allocation -/

/-- The allocations of a call, in order: `NULL`, or an mbuf with whatever was in
its memory. -/
abbrev Alloc := Nat → Option Mbuf

def MGET (raw : Mbuf) (type : Int) : Mbuf := { raw with type := type, data := 0, flags := ⟨false, false, false, false, false⟩ }

def MGETHDR (raw : Mbuf) (type : Int) : Mbuf :=
  { raw with type := type, data := pktdat, flags := ⟨false, true, false, false, false⟩ }

/-- `M_COPY_PKTHDR`; `M_COPYFLAGS` are all flags but `M_EXT`. -/
def M_COPY_PKTHDR (n m : Mbuf) : Mbuf :=
  { n with pkthdr := m.pkthdr, flags := { m.flags with ext := false }, data := pktdat }

/-- `x &~ (sizeof(long) - 1)`. -/
def longword (x : Int) : Int := x / 4 * 4

def M_ALIGN (m : Mbuf) (len : Int) : Mbuf := { m with data := m.data + longword (MLEN - len) }

def MH_ALIGN (m : Mbuf) (len : Int) : Mbuf := { m with data := m.data + longword (MHLEN - len) }

/-- `bcopy(mtod(n) + off, mtod(m) + at, count)`, where `m` has no cluster. -/
def Mbuf.write (m : Mbuf) (pos : Int) (n : Mbuf) (off count : Int) : Mbuf :=
  { m with dat := copy m.dat (m.data + pos) n.mem (n.data + off) count.toNat }

/-- A change to the memory that the data of an mbuf is in. -/
def poke (m : Mbuf) (f : Mem → Mem) : Mbuf :=
  if m.flags.ext then { m with ext := { m.ext with bytes := f m.ext.bytes } } else { m with dat := f m.dat }

section Poke
variable {m : Mbuf} {f : Mem → Mem}

@[simp] theorem poke_mem : (poke m f).mem = f m.mem := by
  cases h : m.flags.ext with
  | false => simp [poke, Mbuf.mem, h]
  | true => simp [poke, Mbuf.mem, h]

@[simp] theorem poke_data : (poke m f).data = m.data := by
  unfold poke
  split <;> rfl

@[simp] theorem poke_len : (poke m f).len = m.len := by
  unfold poke
  split <;> rfl

@[simp] theorem poke_flags : (poke m f).flags = m.flags := by
  unfold poke
  split <;> rfl

@[simp] theorem poke_pkthdr : (poke m f).pkthdr = m.pkthdr := by
  unfold poke
  split <;> rfl

end Poke

/-! ## Bytes -/

section Bytes
variable {m n : Mbuf} {ms ns : List Mbuf}

@[simp] theorem bytes_nil : bytes [] = [] := rfl

@[simp] theorem bytes_cons (m : Mbuf) (ms : List Mbuf) : bytes (m :: ms) = m.bytes ++ bytes ms := List.flatMap_cons

@[simp] theorem bytes_append (ms ns : List Mbuf) : bytes (ms ++ ns) = bytes ms ++ bytes ns := List.flatMap_append

@[simp] theorem length_bytes (m : Mbuf) : m.bytes.length = m.len.toNat := bytesAt_length

theorem Mbuf.Ok.length (h : m.Ok) : (m.bytes.length : Int) = m.len := by
  rw [length_bytes, Int.toNat_of_nonneg h.len]

theorem bytes_of_len_zero (h : m.len = 0) : m.bytes = [] := by
  rw [Mbuf.bytes, h]
  rfl

theorem chain_cons : Chain (m :: ms) ↔ m.Ok ∧ Chain ms := List.forall_mem_cons

theorem chain_append : Chain (ms ++ ns) ↔ Chain ms ∧ Chain ns := List.forall_mem_append

/-- The bytes of an mbuf whose data is cut at both ends. -/
theorem bytesAt_cut (mem : Mem) (a : Int) (i k n : Nat) (h : i + k ≤ n) :
    bytesAt mem (a + i) k = ((bytesAt mem a n).drop i).take k := by
  obtain ⟨j, rfl⟩ := Nat.exists_eq_add_of_le h
  rw [Nat.add_assoc, bytesAt_add, bytesAt_add, List.drop_left' bytesAt_length, List.take_left' bytesAt_length]

theorem part_bytes {off count : Int} (h₀ : 0 ≤ off) (hc : 0 ≤ count) (h : off + count ≤ m.len) :
    bytesAt m.mem (m.data + off) count.toNat = (m.bytes.drop off.toNat).take count.toNat := by
  have hoff : m.data + off = m.data + off.toNat := by rw [Int.toNat_of_nonneg h₀]
  rw [hoff]
  exact bytesAt_cut m.mem m.data off.toNat count.toNat m.len.toNat (by omega)

theorem copy_bytes (dst src : Mem) (a b : Int) (n : Nat) : bytesAt (copy dst a src b n) a n = bytesAt src b n :=
  bytesAt_congr fun i hi => copy_in (by omega) (by omega)

theorem copy_before (dst src : Mem) {a b c : Int} {n k : Nat} (h : c + k ≤ a) :
    bytesAt (copy dst a src b n) c k = bytesAt dst c k :=
  bytesAt_congr fun i hi => copy_out (.inl (by omega))

theorem write_bytes {off count : Int} (hext : m.flags.ext = false) (hm : 0 ≤ m.len) (h₀ : 0 ≤ off) (hc : 0 ≤ count)
    (h : off + count ≤ n.len) :
    { m.write m.len n off count with len := m.len + count }.bytes = m.bytes ++ (n.bytes.drop off.toNat).take count.toNat := by
  have hlen : (m.len + count).toNat = m.len.toNat + count.toNat := by omega
  have hnat : m.data + (m.len.toNat : Int) = m.data + m.len := by rw [Int.toNat_of_nonneg hm]
  simp only [Mbuf.bytes, Mbuf.write, Mbuf.mem, hext, Bool.false_eq_true, if_false, hlen]
  rw [bytesAt_add, hnat, copy_bytes, copy_before _ _ (by omega)]
  exact congrArg _ (part_bytes h₀ hc h)

end Bytes

end BsdKernel.Mbufs
