import BsdKernel.Lib.Records
import BsdKernel.Lib.Trace
import Mathlib.Logic.Function.Basic
import Mathlib.Tactic
/-!
# The buffers of a bpf descriptor

`catchpacket`, `bpfread` and `reset_d` of `net/bpf.c` on an attached descriptor. A
buffer is known by its number; `bpf_allocbufs` gets two. A read is cut where it drops
`splimp`: while it sleeps, and while it copies the hold buffer out to its process.
When it has copied, it moves whatever is in the hold slot to the free slot.

`buf_runs`: in every run in which nothing resets the descriptor and no other read
goes on while a read copies, each buffer is in one slot, the lengths fit the buffers
and no buffer is written while it is copied. A reset during the copy loses a buffer
(`buf_lost`).
-/

namespace BsdKernel.BpfBuf

open BsdKernel.Lib

abbrev Byte := BitVec 8

def BPF_MAXBUFSIZE : Nat := 0x8000
def BPF_MINBUFSIZE : Nat := 32
def SIZEOF_BPF_HDR : Nat := 18

/-- `BPF_WORDALIGN`, for longs of four bytes -/
def bpfWordalign (x : Nat) : Nat := roundUp 4 x

/-- The buffer size that `BIOCSBLEN` sets when it is asked for `size`. -/
def biocsblen (size : Nat) : Nat :=
  if size > BPF_MAXBUFSIZE then BPF_MAXBUFSIZE
  else if size < BPF_MINBUFSIZE then BPF_MINBUFSIZE
  else size

/-- `bif_hdrlen` as `bpfattach` computes it, for a link header of `hdrlen` bytes -/
def bifHdrlen (hdrlen : Nat) : Nat := bpfWordalign (hdrlen + SIZEOF_BPF_HDR) - hdrlen

/-! ## Packets -/

/-- What a driver hands over: a packet in one piece to `bpf_tap`, or an mbuf chain to `bpf_mtap`. -/
inductive Source where
  | contiguous (bytes : List Byte)
  | chain (ms : List (List Byte))
  deriving DecidableEq, Repr

namespace Source

def bytes : Source → List Byte
  | .contiguous bs => bs
  | .chain ms => ms.flatten

/-- `pktlen`: as given to `bpf_tap`, or as `bpf_mtap` adds it up -/
def pktlen : Source → Nat
  | .contiguous bs => bs.length
  | .chain ms => ms.foldl (fun n m => n + m.length) 0

end Source

/-- A packet in the kernel's memory, so short that its length and that of a record are in range. -/
structure Packet where
  src : Source
  short : src.pktlen < 2 ^ 30

/-- `bpf_mcopy`; `none` is its panic. -/
def bpfMcopy : List (List Byte) → Nat → Option (List Byte)
  | _, 0 => some []
  | [], _ + 1 => none
  | m :: ms, len + 1 => (bpfMcopy ms (len + 1 - min m.length (len + 1))).map (m.take (len + 1) ++ ·)

/-- What `cpfn` copies. -/
def Source.copy : Source → Nat → Option (List Byte)
  | .contiguous bs, len => some (bs.take len)
  | .chain ms, len => bpfMcopy ms len

/-! ## The descriptor -/

/-- `struct bpf_d`, the header length that was given for its interface, and what is in the buffers. -/
structure BpfD where
  sbuf : Option Nat
  hbuf : Option Nat
  fbuf : Option Nat
  slen : Nat
  hlen : Nat
  bufsize : Nat
  immediate : Bool
  dcount : Nat
  linkhdr : Nat
  mem : Nat → List Byte

/-- `ROTATE_BUFFERS` -/
def rotateBuffers (d : BpfD) : BpfD :=
  { d with hbuf := d.sbuf, hlen := d.slen, sbuf := d.fbuf, slen := 0, fbuf := none }

/-- Store `bs` at `off`. -/
def writeAt (buf : List Byte) (off : Nat) (bs : List Byte) : List Byte :=
  buf.take off ++ bs ++ buf.drop (off + bs.length)

/-- The members of `struct bpf_hdr` in memory. -/
def hdrBytes (tstamp caplen datalen hdrlen : Nat) : List Byte :=
  toLe 8 tstamp ++ toLe 4 caplen ++ toLe 4 datalen ++ toLe 2 hdrlen

/-- The end of `catchpacket`: the header and the data go to the store buffer at `curlen`. -/
def storeRecord (d : BpfD) (pkt : Packet) (tstamp curlen totlen : Nat) : BpfD :=
  let hdrlen := bifHdrlen d.linkhdr
  let caplen := totlen - hdrlen
  -- `bpf_mcopy` does not run out of mbufs: `copy_eq`
  let data := (pkt.src.copy caplen).getD []
  let record buf := writeAt (writeAt buf curlen (hdrBytes tstamp caplen pkt.src.pktlen hdrlen)) (curlen + hdrlen) data
  { d with
    mem := match d.sbuf with
      | some b => Function.update d.mem b (record (d.mem b))
      | none => d.mem
    slen := curlen + totlen }

/-- `totlen` of `catchpacket` -/
def recordLen (d : BpfD) (pktlen snaplen : Nat) : Nat :=
  let totlen := bifHdrlen d.linkhdr + min snaplen pktlen
  if totlen > d.bufsize then d.bufsize else totlen

def catchpacket (d : BpfD) (pkt : Packet) (snaplen tstamp : Nat) : BpfD :=
  let totlen := recordLen d pkt.src.pktlen snaplen
  let curlen := bpfWordalign d.slen
  if curlen + totlen > d.bufsize then
    if d.fbuf = none then { d with dcount := d.dcount + 1 }
    else storeRecord (rotateBuffers d) pkt tstamp 0 totlen
  else storeRecord d pkt tstamp curlen totlen

def resetD (d : BpfD) : BpfD :=
  if d.hbuf ≠ none then { d with fbuf := d.hbuf, hbuf := none, slen := 0, hlen := 0, dcount := 0 }
  else { d with slen := 0, hlen := 0, dcount := 0 }

/-! ## Reads -/

/-- Where a process is in `bpfread`. -/
inductive Pc where
  | idle
  /-- in `BPF_SLEEP` -/
  | asleep
  /-- in `UIOMOVE` -/
  | copying (buf : Option Nat) (len : Nat)
  deriving DecidableEq, Repr

/-- What `BPF_SLEEP` returns: 0, `EWOULDBLOCK`, or `EINTR` or `ERESTART`. -/
inductive Wake where
  | woken | timeout | interrupted
  deriving DecidableEq, Repr

/-- From the test of `while (d->bd_hbuf == 0)` on. -/
def readLoop (d : BpfD) : BpfD × Pc :=
  if d.hbuf = none then
    if d.immediate ∧ d.slen ≠ 0 then (rotateBuffers d, .copying (rotateBuffers d).hbuf (rotateBuffers d).hlen)
    else (d, .asleep)
  else (d, .copying d.hbuf d.hlen)

/-- From the return of `BPF_SLEEP` on. -/
def readWake (d : BpfD) : Wake → BpfD × Pc
  | .woken => readLoop d
  | .interrupted => (d, .idle)
  | .timeout =>
    if d.hbuf ≠ none then (d, .copying d.hbuf d.hlen)
    else if d.slen = 0 then (d, .idle)
    else (rotateBuffers d, .copying (rotateBuffers d).hbuf (rotateBuffers d).hlen)

/-- From the return of `UIOMOVE` on. -/
def readDone (d : BpfD) : BpfD := { d with fbuf := d.hbuf, hbuf := none, hlen := 0 }

/-- A descriptor with the processes that may read it, what has been returned to them, and whether a buffer was
written while it was copied. -/
structure State where
  d : BpfD
  pcs : List Pc
  returned : List (List Byte)
  torn : Bool

inductive Op where
  /-- `bpf_tap` or `bpf_mtap`, with what the filter returns -/
  | arrive (pkt : Packet) (snaplen tstamp : Nat)
  /-- a call of `bpfread` with room for `resid` bytes -/
  | read (p resid : Nat)
  | wake (p : Nat) (error : Wake)
  | copied (p : Nat)
  /-- `BIOCFLUSH`, `BIOCSETF`, or `BIOCSETIF` to the interface it is attached to -/
  | reset
  /-- `BIOCSETIF` to another interface -/
  | setif (linkhdr : Nat)
  /-- `BIOCIMMEDIATE` -/
  | immediate (on : Bool)

/-- A process copies from `b`. -/
def Pc.copies (b : Option Nat) : Pc → Bool
  | .copying buf _ => b ≠ none ∧ buf = b
  | _ => false

def Pc.isCopying : Pc → Bool
  | .copying _ _ => true
  | _ => false

/-- `bpf_tap` for this descriptor. -/
def arrive (s : State) (pkt : Packet) (snaplen tstamp : Nat) : State :=
  if snaplen = 0 then s
  else
    let d := catchpacket s.d pkt snaplen tstamp
    -- a packet that is not dropped is written to what is then the store buffer
    { s with d, torn := s.torn || (d.dcount == s.d.dcount && s.pcs.any (Pc.copies d.sbuf)) }

def step (s : State) : Op → State
  | .arrive pkt snaplen tstamp => arrive s pkt snaplen tstamp
  | .read p resid =>
    if s.pcs[p]? = some .idle ∧ resid = s.d.bufsize then
      { s with d := (readLoop s.d).1, pcs := s.pcs.set p (readLoop s.d).2 }
    else s
  | .wake p error =>
    if s.pcs[p]? = some .asleep then
      { s with d := (readWake s.d error).1, pcs := s.pcs.set p (readWake s.d error).2 }
    else s
  | .copied p =>
    match s.pcs[p]? with
    | some (.copying buf len) =>
      let data := (buf.map fun b => (s.d.mem b).take len).getD []
      { s with d := readDone s.d, pcs := s.pcs.set p .idle, returned := s.returned ++ [data] }
    | _ => s
  | .reset => { s with d := resetD s.d }
  | .setif linkhdr => { s with d := resetD { s.d with linkhdr } }
  | .immediate on => { s with d := { s.d with immediate := on } }

/-- The descriptor after `bpf_allocbufs` and `bpf_attachd`, with `n` processes that have it open; `junk` is what
is in the new buffers. -/
def start (n size linkhdr : Nat) (junk : Nat → Nat → Byte) : State where
  d :=
    { sbuf := some 0, hbuf := none, fbuf := some 1, slen := 0, hlen := 0, bufsize := biocsblen size,
      immediate := false, dcount := 0, linkhdr, mem := fun b => (List.range (biocsblen size)).map (junk b) }
  pcs := List.replicate n .idle
  returned := []
  torn := false

/-! ## The slots -/

/-- Each of the two buffers is in one slot, one of them in the store slot. -/
def Slots (d : BpfD) : Prop :=
  ∃ a b, (a = 0 ∧ b = 1 ∨ a = 1 ∧ b = 0) ∧ d.sbuf = some a ∧
    (d.hbuf = some b ∧ d.fbuf = none ∨ d.hbuf = none ∧ d.fbuf = some b)

/-- The slots and the lengths are right, and no buffer was written while it was copied. -/
structure Good (s : State) : Prop where
  slots : Slots s.d
  slen_le : s.d.slen ≤ s.d.bufsize
  hlen_le : s.d.hlen ≤ s.d.bufsize
  whole : s.torn = false

/-- No process is copying. -/
def NoneCopies (s : State) : Prop := ∀ pc ∈ s.pcs, pc.isCopying = false

/-- Nothing but packets reaches the buffers while a process copies. -/
def Fits (s : State) : Op → Prop
  | .arrive _ _ _ | .copied _ | .immediate _ => True
  | .read p resid => s.pcs[p]? = some .idle → resid = s.d.bufsize → NoneCopies s
  | .wake p error => s.pcs[p]? = some .asleep → error ≠ .interrupted → NoneCopies s
  | .reset | .setif _ => NoneCopies s

section Frame
variable (d : BpfD) (pkt : Packet) (tstamp curlen totlen : Nat)

@[simp] theorem storeRecord_sbuf : (storeRecord d pkt tstamp curlen totlen).sbuf = d.sbuf := rfl
@[simp] theorem storeRecord_hbuf : (storeRecord d pkt tstamp curlen totlen).hbuf = d.hbuf := rfl
@[simp] theorem storeRecord_fbuf : (storeRecord d pkt tstamp curlen totlen).fbuf = d.fbuf := rfl
@[simp] theorem storeRecord_slen : (storeRecord d pkt tstamp curlen totlen).slen = curlen + totlen := rfl
@[simp] theorem storeRecord_hlen : (storeRecord d pkt tstamp curlen totlen).hlen = d.hlen := rfl
@[simp] theorem storeRecord_bufsize : (storeRecord d pkt tstamp curlen totlen).bufsize = d.bufsize := rfl
@[simp] theorem storeRecord_dcount : (storeRecord d pkt tstamp curlen totlen).dcount = d.dcount := rfl

end Frame

theorem recordLen_le (d : BpfD) (pktlen snaplen : Nat) : recordLen d pktlen snaplen ≤ d.bufsize := by
  unfold recordLen
  dsimp only
  split <;> omega

theorem Slots.rotate {d : BpfD} (h : Slots d) (hn : d.hbuf = none) :
    Slots (rotateBuffers d) ∧ (rotateBuffers d).hbuf ≠ none := by
  obtain ⟨a, b, hab, hs, hh | hh⟩ := h
  · simp [hh.1] at hn
  · exact ⟨⟨b, a, by tauto, hh.2, .inl ⟨hs, rfl⟩⟩, by simp [rotateBuffers, hs]⟩

/-- What `catchpacket` can do: drop the packet, rotate and store it, or store it behind the others. -/
theorem catchpacket_cases (d : BpfD) (pkt : Packet) (snaplen tstamp : Nat) :
    (d.fbuf = none ∧ catchpacket d pkt snaplen tstamp = { d with dcount := d.dcount + 1 }) ∨
    (d.fbuf ≠ none ∧ catchpacket d pkt snaplen tstamp =
      storeRecord (rotateBuffers d) pkt tstamp 0 (recordLen d pkt.src.pktlen snaplen)) ∨
    (bpfWordalign d.slen + recordLen d pkt.src.pktlen snaplen ≤ d.bufsize ∧ catchpacket d pkt snaplen tstamp =
      storeRecord d pkt tstamp (bpfWordalign d.slen) (recordLen d pkt.src.pktlen snaplen)) := by
  unfold catchpacket
  dsimp only
  split
  · split
    · exact .inl ⟨‹_›, rfl⟩
    · exact .inr (.inl ⟨‹_›, rfl⟩)
  · exact .inr (.inr ⟨by omega, rfl⟩)

/-- What holds between the steps: a process that copies does so from the hold buffer, and alone. -/
structure Inv (s : State) : Prop extends Good s where
  reader : ∀ (p : Nat) buf len, s.pcs[p]? = some (Pc.copying buf len) → buf = s.d.hbuf ∧ buf ≠ none ∧ len = s.d.hlen
  alone : ∀ p q : Nat, (s.pcs[p]?.map Pc.isCopying) = some true → (s.pcs[q]?.map Pc.isCopying) = some true → p = q

namespace Inv
variable {s : State}

theorem noneCopies (h : Inv s) (hn : s.d.hbuf = none) : NoneCopies s := by
  intro pc hpc
  obtain ⟨p, hp⟩ := List.mem_iff_getElem?.1 hpc
  cases pc with
  | idle | asleep => rfl
  | copying buf len =>
    obtain ⟨hbuf, hne, -⟩ := h.reader p buf len hp
    exact absurd (hbuf.trans hn) hne

theorem not_torn (h : Inv s) {b : Option Nat} (hb : b ≠ s.d.hbuf) : s.pcs.any (Pc.copies b) = false := by
  rw [List.any_eq_false]
  intro pc hpc
  obtain ⟨p, hp⟩ := List.mem_iff_getElem?.1 hpc
  cases pc with
  | idle | asleep => simp [Pc.copies]
  | copying buf len =>
    obtain ⟨hbuf, -, -⟩ := h.reader p buf len hp
    simp [Pc.copies, hbuf, Ne.symm hb]

theorem arrive (h : Inv s) (pkt : Packet) (snaplen tstamp : Nat) : Inv (arrive s pkt snaplen tstamp) := by
  unfold BpfBuf.arrive
  split
  · exact h
  dsimp only
  obtain ⟨a, b, hab, hsbuf, hslot⟩ := h.slots
  have hne : a ≠ b := by omega
  rcases catchpacket_cases s.d pkt snaplen tstamp with ⟨-, heq⟩ | ⟨hf, heq⟩ | ⟨hfit, heq⟩
  · -- dropped: only the count changes
    rw [heq]
    exact { slots := h.slots, slen_le := h.slen_le, hlen_le := h.hlen_le, whole := by simp [h.whole],
            reader := h.reader, alone := h.alone }
  · -- the free buffer is there, so the hold slot is empty and no process copies
    obtain ⟨hh, hf⟩ : s.d.hbuf = none ∧ s.d.fbuf = some b := by
      rcases hslot with hslot | hslot
      · exact absurd hslot.2 hf
      · exact hslot
    have hnone := h.noneCopies hh
    have hany : s.pcs.any (Pc.copies (some b)) = false := h.not_torn (by simp [hh])
    rw [heq]
    refine { slots := (h.slots.rotate hh).1, slen_le := ?_, hlen_le := h.slen_le, whole := ?_, reader := ?_,
             alone := h.alone }
    · simpa [rotateBuffers] using recordLen_le s.d pkt.src.pktlen snaplen
    · simp [rotateBuffers, h.whole, hf, hany]
    · intro p buf len hp
      exact absurd (hnone _ (List.mem_of_getElem? hp)) (by simp [Pc.isCopying])
  · -- the store buffer is not the one that is held
    have hany : s.pcs.any (Pc.copies (some a)) = false := by
      apply h.not_torn
      rcases hslot with hslot | hslot <;> simp [hslot.1, hne]
    rw [heq]
    exact { slots := h.slots, slen_le := by simpa using hfit, hlen_le := h.hlen_le,
            whole := by simp [h.whole, hsbuf, hany], reader := h.reader, alone := h.alone }

/-- A process that does not copy afterwards. -/
theorem setPc (h : Inv s) (p : Nat) {pc : Pc} (hpc : pc.isCopying = false) : Inv { s with pcs := s.pcs.set p pc } where
  toGood := ⟨h.slots, h.slen_le, h.hlen_le, h.whole⟩
  reader q buf len hq := by
    dsimp only at hq
    rw [List.getElem?_set] at hq
    split at hq
    · split at hq
      · cases hq
        cases hpc
      · cases hq
    · exact h.reader q buf len hq
  alone q q' hq hq' := by
    have hmono : ∀ k : Nat, (s.pcs.set p pc)[k]?.map Pc.isCopying = some true → s.pcs[k]?.map Pc.isCopying = some true := by
      intro k hk
      rw [List.getElem?_set] at hk
      split at hk
      · split at hk <;> simp [hpc] at hk
      · exact hk
    exact h.alone q q' (hmono q hq) (hmono q' hq')

/-- A process starts to copy the hold buffer while no other one does. -/
theorem setCopying (h : Inv s) (hn : NoneCopies s) (p : Nat) (hbuf : s.d.hbuf ≠ none) :
    Inv { s with pcs := s.pcs.set p (.copying s.d.hbuf s.d.hlen) } where
  toGood := ⟨h.slots, h.slen_le, h.hlen_le, h.whole⟩
  reader q buf len hq := by
    dsimp only at hq
    rw [List.getElem?_set] at hq
    split at hq
    · split at hq
      · cases hq
        exact ⟨rfl, hbuf, rfl⟩
      · cases hq
    · exact absurd (hn _ (List.mem_of_getElem? hq)) (by simp [Pc.isCopying])
  alone q q' hq hq' := by
    have hp : ∀ k : Nat, (s.pcs.set p (.copying s.d.hbuf s.d.hlen))[k]?.map Pc.isCopying = some true → k = p := by
      intro k hk
      rw [List.getElem?_set] at hk
      split at hk
      · omega
      · obtain ⟨pc, hpc, htrue⟩ := Option.map_eq_some_iff.1 hk
        exact absurd htrue (by simp [hn pc (List.mem_of_getElem? hpc)])
    rw [hp q hq, hp q' hq']

theorem rotate (h : Inv s) (hn : s.d.hbuf = none) : Inv { s with d := rotateBuffers s.d } where
  toGood := ⟨(h.slots.rotate hn).1, Nat.zero_le _, h.slen_le, h.whole⟩
  reader p buf len hp := absurd (h.noneCopies hn _ (List.mem_of_getElem? hp)) (by simp [Pc.isCopying])
  alone := h.alone

/-- A read that is done returns the hold buffer. -/
theorem readDone (h : Inv s) {p : Nat} {buf : Option Nat} {len : Nat} (hp : s.pcs[p]? = some (.copying buf len))
    (data : List Byte) :
    Inv { s with d := readDone s.d, pcs := s.pcs.set p .idle, returned := s.returned ++ [data] } := by
  obtain ⟨a, b, hab, hsbuf, hslot⟩ := h.slots
  obtain ⟨hbuf, hne, -⟩ := h.reader p buf len hp
  have hslot' : s.d.hbuf = some b ∧ s.d.fbuf = none := by
    rcases hslot with hslot | hslot
    · exact hslot
    · exact absurd (hbuf.trans hslot.1) hne
  have hnone : NoneCopies { s with pcs := s.pcs.set p .idle } := by
    intro pc hpc
    obtain ⟨q, hq⟩ := List.mem_iff_getElem?.1 hpc
    dsimp only at hq
    rw [List.getElem?_set] at hq
    split at hq
    · split at hq
      · cases hq
        rfl
      · cases hq
    · rename_i hpq
      by_contra hcopies
      have hcopies : pc.isCopying = true := by simpa using hcopies
      exact hpq (h.alone p q (by simp [hp, Pc.isCopying]) (by simp [hq, hcopies]))
  have hinv : Inv { s with pcs := s.pcs.set p .idle } := h.setPc p rfl
  exact { slots := ⟨a, b, hab, hsbuf, .inr ⟨rfl, hslot'.1⟩⟩, slen_le := h.slen_le, hlen_le := Nat.zero_le _,
          whole := h.whole, alone := hinv.alone,
          reader := fun q buf len hq => absurd (hnone _ (List.mem_of_getElem? hq)) (by simp [Pc.isCopying]) }

theorem reset (h : Inv s) (hn : NoneCopies s) (linkhdr : Nat) : Inv { s with d := resetD { s.d with linkhdr } } := by
  obtain ⟨a, b, hab, hsbuf, hslot⟩ := h.slots
  have hreader : ∀ (p : Nat) buf len, s.pcs[p]? = some (Pc.copying buf len) → False := fun p buf len hp =>
    absurd (hn _ (List.mem_of_getElem? hp)) (by simp [Pc.isCopying])
  unfold resetD
  dsimp only
  split
  · rename_i hh
    have hh : s.d.hbuf = some b := by
      rcases hslot with hslot | hslot
      · exact hslot.1
      · exact absurd hslot.1 hh
    exact { slots := ⟨a, b, hab, hsbuf, .inr ⟨rfl, hh⟩⟩, slen_le := Nat.zero_le _, hlen_le := Nat.zero_le _,
            whole := h.whole, alone := h.alone, reader := fun p buf len hp => (hreader p buf len hp).elim }
  · exact { slots := ⟨a, b, hab, hsbuf, hslot⟩, slen_le := Nat.zero_le _, hlen_le := Nat.zero_le _,
            whole := h.whole, alone := h.alone, reader := fun p buf len hp => (hreader p buf len hp).elim }

theorem readLoop (h : Inv s) (hn : NoneCopies s) (p : Nat) :
    Inv { s with d := (readLoop s.d).1, pcs := s.pcs.set p (readLoop s.d).2 } := by
  unfold BpfBuf.readLoop
  split
  · rename_i hh
    split
    · exact (h.rotate hh).setCopying hn p (h.slots.rotate hh).2
    · exact h.setPc p rfl
  · exact h.setCopying hn p ‹_›

theorem readWake (h : Inv s) (p : Nat) (error : Wake) (hn : error ≠ .interrupted → NoneCopies s) :
    Inv { s with d := (readWake s.d error).1, pcs := s.pcs.set p (readWake s.d error).2 } := by
  cases error with
  | woken => exact h.readLoop (hn (by simp)) p
  | interrupted => exact h.setPc p rfl
  | timeout =>
    have hn := hn (by simp)
    unfold BpfBuf.readWake
    dsimp only
    split
    · exact h.setCopying hn p ‹_›
    · rename_i hh
      have hh : s.d.hbuf = none := by simpa using hh
      split
      · exact h.setPc p rfl
      · exact (h.rotate hh).setCopying hn p (h.slots.rotate hh).2

theorem step (h : Inv s) (op : Op) (hfits : Fits s op) : Inv (step s op) := by
  cases op with
  | arrive pkt snaplen tstamp => exact h.arrive pkt snaplen tstamp
  | read p resid =>
    unfold BpfBuf.step
    dsimp only
    split
    · rename_i hcall
      exact h.readLoop (hfits hcall.1 hcall.2) p
    · exact h
  | wake p error =>
    unfold BpfBuf.step
    dsimp only
    split
    · rename_i hcall
      exact h.readWake p error (hfits hcall)
    · exact h
  | copied p =>
    unfold BpfBuf.step
    dsimp only
    split
    · rename_i hp
      exact h.readDone hp _
    · exact h
  | reset => exact h.reset hfits s.d.linkhdr
  | setif linkhdr => exact h.reset hfits linkhdr
  | immediate on =>
    exact { slots := h.slots, slen_le := h.slen_le, hlen_le := h.hlen_le, whole := h.whole, reader := h.reader,
            alone := h.alone }

end Inv

theorem inv_start (n size linkhdr : Nat) (junk : Nat → Nat → Byte) : Inv (start n size linkhdr junk) := by
  have hidle : ∀ (p : Nat) pc, (List.replicate n Pc.idle)[p]? = some pc → pc = .idle := by
    intro p pc hp
    exact List.eq_of_mem_replicate (List.mem_of_getElem? hp)
  exact
    { slots := ⟨0, 1, .inl ⟨rfl, rfl⟩, rfl, .inr ⟨rfl, rfl⟩⟩, slen_le := Nat.zero_le _, hlen_le := Nat.zero_le _,
      whole := rfl, reader := fun p buf len hp => (nomatch hidle p _ hp),
      alone := by
        intro p q hp hq
        obtain ⟨pc, hpc, htrue⟩ := Option.map_eq_some_iff.1 hp
        rw [hidle p pc hpc] at htrue
        cases htrue }

/-- In every run in which no reset and no other read comes between the copy of a read and its end, each buffer is
in one slot, the lengths fit, and no buffer is written while it is copied. -/
theorem buf_runs (n size linkhdr : Nat) (junk : Nat → Nat → Byte) (ops : List Op)
    (hf : Along step Fits (start n size linkhdr junk) ops) :
    ∀ s ∈ states step (start n size linkhdr junk) ops, Good s := by
  have hrun := states_of_along (I := Inv) (fun s op h hok => h.step op hok) (inv_start n size linkhdr junk) hf
  exact fun s hs => (hrun s hs).toGood

/-- A packet of one byte. -/
def onePacket : Packet := ⟨.contiguous [7], by decide⟩

/-- A packet arrives, is read, and then the descriptor is flushed. -/
def flushAfter : List Op := [.immediate true, .arrive onePacket 1 0, .read 0 32, .copied 0, .reset]

theorem buf_runs_flush_after : Along step Fits (start 1 32 14 fun _ _ => 0) flushAfter ∧
    ∀ s ∈ states step (start 1 32 14 fun _ _ => 0) flushAfter, Good s := by
  have hf : Along step Fits (start 1 32 14 fun _ _ => 0) flushAfter := by
    refine ⟨trivial, trivial, fun _ _ => ?_, trivial, ?_, trivial⟩
    · unfold NoneCopies
      decide
    · unfold Fits NoneCopies
      decide
  exact ⟨hf, buf_runs 1 32 14 _ flushAfter hf⟩

/-- The flush comes while the packet is copied out. -/
def flushDuring : List Op := [.immediate true, .arrive onePacket 1 0, .read 0 32, .reset, .copied 0]

/-- One of the two buffers is in no slot. -/
theorem buf_lost : (final step (start 1 32 14 fun _ _ => 0) flushDuring).d.hbuf = none ∧
    (final step (start 1 32 14 fun _ _ => 0) flushDuring).d.fbuf = none ∧
    ¬∀ s ∈ states step (start 1 32 14 fun _ _ => 0) flushDuring, Good s := by
  have hh : (final step (start 1 32 14 fun _ _ => 0) flushDuring).d.hbuf = none := by decide
  have hf : (final step (start 1 32 14 fun _ _ => 0) flushDuring).d.fbuf = none := by decide
  refine ⟨hh, hf, fun hall => ?_⟩
  obtain ⟨a, b, -, -, hslot⟩ := (hall _ (final_mem_states step _ flushDuring)).slots
  rcases hslot with hslot | hslot
  · rw [hh] at hslot
    cases hslot.1
  · rw [hf] at hslot
    cases hslot.2

end BsdKernel.BpfBuf
