import BsdKernel.Net.BpfFilter
/-!
# Filtering a chain of mbufs

The kernel runs a filter on an mbuf chain (`buflen` is 0) or on a buffer. The
loads take different paths: `m_xword` and `m_xhalf` add the offset in the mbuf
twice when a value straddles two mbufs, `m_xword` looks at one following mbuf
only, `BPF_LD|BPF_H|BPF_ABS` ignores the error of `m_xhalf`, `BPF_LD|BPF_B|BPF_IND`
reads the mbuf's byte through a signed pointer, and none of them looks for a
negative offset. `Op.Agrees` says where a load is clear of all of these; a run
whose loads all are gives the same outcome on both (`chain_run`).
-/

namespace BsdKernel.Bpf

/-! ## The bytes of a packet -/

def Mbuf.bytes (m : Mbuf) : List Byte := (List.range m.mLen).map fun i : Nat => m.mtod i

def chainBytes (ms : List Mbuf) : List Byte := ms.flatMap Mbuf.bytes

/-- The buffer at `p` holds `bytes`. -/
structure Packet.Buffer (pkt : Packet) (bytes : List Byte) : Prop where
  buflen : pkt.buflen.toNat = bytes.length
  p : ∀ (i : Nat) (b : Byte), bytes[i]? = some b → pkt.p i = b

/-- The chain at `p` holds `bytes`, in mbufs that are not empty. -/
structure Packet.Chain (pkt : Packet) (bytes : List Byte) : Prop where
  buflen : pkt.buflen = 0
  nonempty : ∀ m ∈ pkt.m :: pkt.mNext, 0 < m.mLen
  bytes : chainBytes (pkt.m :: pkt.mNext) = bytes

@[simp] theorem bytes_length (m : Mbuf) : m.bytes.length = m.mLen := by simp [Mbuf.bytes]

theorem bytes_get {m : Mbuf} {i : Nat} (h : i < m.mLen) : m.bytes[i]? = some (m.mtod i) := by
  simp [Mbuf.bytes, h]

theorem chainBytes_cons (m : Mbuf) (ms : List Mbuf) : chainBytes (m :: ms) = m.bytes ++ chainBytes ms := rfl

/-- Where byte `k` of a chain is: in mbuf `m`, at offset `j`, with `rest` behind
it. -/
structure Located (ms : List Mbuf) (k : Nat) (m : Mbuf) (rest : List Mbuf) (j : Nat) : Prop where
  lt : j < m.mLen
  suffix : m :: rest <:+ ms
  bytes : (chainBytes ms).drop k = (m.bytes ++ chainBytes rest).drop j

/-- What the loop over the chain finds. -/
inductive Found (ms : List Mbuf) (k : Nat) : Option (Mbuf × List Mbuf × Int) → Prop where
  | none (h : (chainBytes ms).length ≤ k) : Found ms k none
  | some {m : Mbuf} {rest : List Mbuf} {j : Nat} (h : Located ms k m rest j) : Found ms k (some (m, rest, j))

theorem mIndex_found (m : Mbuf) (next : List Mbuf) (k : Nat) : Found (m :: next) k (mIndex m next k) := by
  induction next generalizing m k with
  | nil =>
    unfold mIndex
    split
    · refine .none ?_
      simp only [chainBytes, List.flatMap_cons, List.flatMap_nil, List.append_nil, bytes_length]
      omega
    · exact .some ⟨by omega, List.suffix_refl _, rfl⟩
  | cons m' next ih =>
    unfold mIndex
    split
    · next hk =>
      have hcast : (k : Int) - m.mLen = ((k - m.mLen : Nat) : Int) := by omega
      simp only [hcast]
      have hdrop : (chainBytes (m :: m' :: next)).drop k = (chainBytes (m' :: next)).drop (k - m.mLen) := by
        rw [chainBytes_cons m, List.drop_append, List.drop_eq_nil_of_le (by simp; omega), bytes_length, List.nil_append]
      have hf := ih m' (k - m.mLen)
      generalize mIndex m' next _ = r at hf ⊢
      cases hf with
      | none h =>
        refine .none ?_
        rw [chainBytes_cons, List.length_append, bytes_length]
        omega
      | some h => exact .some ⟨h.lt, h.suffix.trans (List.suffix_cons _ _), hdrop.trans h.bytes⟩
    · exact .some ⟨by omega, List.suffix_refl _, rfl⟩

section Located
variable {ms rest : List Mbuf} {k j : Nat} {m : Mbuf}

theorem Located.get (h : Located ms k m rest j) (i : Nat) :
    (chainBytes ms)[k + i]? = (m.bytes ++ chainBytes rest)[j + i]? := by
  rw [← List.getElem?_drop, h.bytes, List.getElem?_drop]

theorem Located.get_here (h : Located ms k m rest j) {i : Nat} (hi : j + i < m.mLen) :
    (chainBytes ms)[k + i]? = some (m.mtod (j + i)) := by
  rw [h.get, List.getElem?_append_left (by simpa using hi), bytes_get hi]
  rfl

theorem Located.get_next {m' : Mbuf} {rest' : List Mbuf} (h : Located ms k m (m' :: rest') j) {i a : Nat}
    (ha : a < m'.mLen) (hi : j + i = m.mLen + a) : (chainBytes ms)[k + i]? = some (m'.mtod a) := by
  rw [h.get, hi, List.getElem?_append_right (by simp), bytes_length, Nat.add_sub_cancel_left, chainBytes_cons,
    List.getElem?_append_left (by simpa using ha), bytes_get ha]

theorem Located.length (h : Located ms k m rest j) :
    (chainBytes ms).length + j = k + m.mLen + (chainBytes rest).length := by
  have hl := congrArg List.length h.bytes
  have := h.lt
  simp only [List.length_drop, List.length_append, bytes_length] at hl
  omega

end Located

/-! ## The two paths of a load -/

theorem toUnsigned_add {k c : Nat} (hk : k < 2 ^ 31) (hc : c ≤ 4) :
    (toUnsigned k + BitVec.ofNat 32 c).toNat = k + c := by
  simp only [toUnsigned, BitVec.ofInt_natCast, BitVec.toNat_add, BitVec.toNat_ofNat]
  omega

section Paths
variable {buf ch : Packet} {bytes : List Byte} {k : Nat}

theorem Packet.Chain.length_pos (hc : ch.Chain bytes) : 0 < bytes.length := by
  have := hc.nonempty ch.m (by simp)
  rw [← hc.bytes, chainBytes_cons, List.length_append, bytes_length]
  omega

theorem ldWord_chain (hc : ch.Chain bytes) (hk : k < 2 ^ 31) : ldWord ch k = mXword ch.m ch.mNext k := by
  have h4 := toUnsigned_add (c := 4) hk (by omega)
  rw [ldWord, hc.buflen, if_pos, if_neg (by simp)]
  simp only [GT.gt, BitVec.lt_def, BitVec.ofNat_eq_ofNat, h4]
  simp

theorem ldHalfInd_chain (hc : ch.Chain bytes) (hk : k < 2 ^ 31) : ldHalfInd ch k = mXhalf ch.m ch.mNext k := by
  have h2 := toUnsigned_add (c := 2) hk (by omega)
  rw [ldHalfInd, hc.buflen, if_pos, if_neg (by simp)]
  simp only [GT.gt, BitVec.lt_def, BitVec.ofNat_eq_ofNat, h2]
  simp

theorem ldHalfAbs_chain (hc : ch.Chain bytes) (hk : k < 2 ^ 31) :
    ldHalfAbs ch k = some ((mXhalf ch.m ch.mNext k).getD 0) := by
  have h2 := toUnsigned_add (c := 2) hk (by omega)
  rw [ldHalfAbs, hc.buflen, if_pos, if_neg (by simp)]
  simp only [GT.gt, BitVec.lt_def, BitVec.ofNat_eq_ofNat, h2]
  simp

theorem ldByte_chain (extend : Byte → Word) (hc : ch.Chain bytes) :
    ldByte extend ch k = (mIndex ch.m ch.mNext k).map fun (m, _, k) => extend (m.mtod k) := by
  rw [ldByte, hc.buflen, if_pos (by simp [BitVec.le_def]), if_neg (by simp)]

theorem Packet.Buffer.buflen_ne (hb : buf.Buffer bytes) (hpos : 0 < bytes.length) : buf.buflen ≠ 0#32 := by
  intro h
  have := hb.buflen
  rw [h] at this
  simp only [BitVec.toNat_ofNat] at this
  omega

theorem ldWord_buffer (hb : buf.Buffer bytes) (hpos : 0 < bytes.length) (hk : k < 2 ^ 31) :
    ldWord buf k = if bytes.length < k + 4 then none else some (extractLong buf.p k) := by
  have hne := hb.buflen_ne hpos
  have h4 := toUnsigned_add (c := 4) hk (by omega)
  simp only [ldWord, GT.gt, BitVec.lt_def, BitVec.ofNat_eq_ofNat, h4, hb.buflen, hne, ne_eq, not_false_eq_true, if_true]

theorem ldHalfInd_buffer (hb : buf.Buffer bytes) (hpos : 0 < bytes.length) (hk : k < 2 ^ 31) :
    ldHalfInd buf k = if bytes.length < k + 2 then none else some (extractShort buf.p k) := by
  have hne := hb.buflen_ne hpos
  have h2 := toUnsigned_add (c := 2) hk (by omega)
  simp only [ldHalfInd, GT.gt, BitVec.lt_def, BitVec.ofNat_eq_ofNat, h2, hb.buflen, hne, ne_eq, not_false_eq_true,
    if_true]

theorem ldByte_buffer (extend : Byte → Word) (hb : buf.Buffer bytes) (hpos : 0 < bytes.length) (hk : k < 2 ^ 31) :
    ldByte extend buf k = (bytes[k]?).map (·.setWidth 32) := by
  have hne := hb.buflen_ne hpos
  have h0 : (toUnsigned k).toNat = k := by simpa using toUnsigned_add (c := 0) hk (by omega)
  simp only [ldByte, GE.ge, BitVec.le_def, h0, hb.buflen, BitVec.ofNat_eq_ofNat, hne, ne_eq, not_false_eq_true,
    if_true]
  split
  · next h => rw [List.getElem?_eq_none h, Option.map_none]
  · next h =>
    have hget := List.getElem?_eq_getElem (l := bytes) (i := k) (by omega)
    rw [hget, Option.map_some, hb.p k _ hget]

theorem extractLong_buffer (hb : buf.Buffer bytes) {a b c d : Byte} (h0 : bytes[k + 0]? = some a)
    (h1 : bytes[k + 1]? = some b) (h2 : bytes[k + 2]? = some c) (h3 : bytes[k + 3]? = some d) :
    extractLong buf.p k = a ++ b ++ c ++ d := by
  rw [extractLong, ← hb.p _ _ h0, ← hb.p _ _ h1, ← hb.p _ _ h2, ← hb.p _ _ h3]
  rfl

theorem extractShort_buffer (hb : buf.Buffer bytes) {a b : Byte} (h0 : bytes[k + 0]? = some a)
    (h1 : bytes[k + 1]? = some b) : extractShort buf.p k = (a ++ b : BitVec 16).setWidth 32 := by
  rw [extractShort, ← hb.p _ _ h0, ← hb.p _ _ h1]
  rfl

end Paths

/-! ## Where they agree -/

/-- Nothing is wrong with the word at `k`: it ends past the packet, or is in one
mbuf, or starts an mbuf and ends in the next. -/
def WordAgrees (ch : Packet) (k : Int) : Prop :=
  0 ≤ k ∧
    match mIndex ch.m ch.mNext k with
    | none => True
    | some (m, rest, j) =>
      (chainBytes (ch.m :: ch.mNext)).length < k + 4 ∨ j + 4 ≤ m.mLen ∨
        j = 0 ∧ 4 ≤ m.mLen + (rest.head?.elim 0 Mbuf.mLen)

def HalfAgrees (ch : Packet) (k : Int) : Prop :=
  0 ≤ k ∧
    match mIndex ch.m ch.mNext k with
    | none => True
    | some (m, _, j) => (chainBytes (ch.m :: ch.mNext)).length < k + 2 ∨ j + 2 ≤ m.mLen ∨ j = 0

/-- The byte at `k`, if there is one, is not negative. -/
def ByteAgrees (ch : Packet) (k : Int) : Prop :=
  0 ≤ k ∧
    match (chainBytes (ch.m :: ch.mNext))[k.toNat]? with
    | none => True
    | some b => b.msb = false

section Agrees
variable {buf ch : Packet} {bytes : List Byte} {k : Nat}

theorem ldWord_agrees (hb : buf.Buffer bytes) (hc : ch.Chain bytes) (hk : k < 2 ^ 31) (h : WordAgrees ch k) :
    ldWord ch k = ldWord buf k := by
  rw [ldWord_chain hc hk, ldWord_buffer hb hc.length_pos hk]
  obtain ⟨-, h⟩ := h
  have hf := mIndex_found ch.m ch.mNext k
  simp only [hc.bytes] at h
  unfold mXword
  generalize mIndex ch.m ch.mNext k = r at hf h ⊢
  cases hf with
  | none hle =>
    rw [hc.bytes] at hle
    rw [if_pos (by omega)]
  | @some m rest j hl =>
    have hlt := hl.lt
    have hlen := hl.length
    rw [hc.bytes] at hlen
    simp only at h ⊢
    have here : ∀ i : Nat, j + i < m.mLen → bytes[k + i]? = some (m.mtod (j + i)) := fun i hi => by
      rw [← hc.bytes, hl.get_here hi]
    by_cases hin : j + 4 ≤ m.mLen
    · rw [if_pos (by omega), if_neg (by omega), extractLong_buffer hb (here 0 (by omega)) (here 1 (by omega))
        (here 2 (by omega)) (here 3 (by omega))]
      rfl
    rw [if_neg (by omega)]
    cases rest with
    | nil =>
      simp only [chainBytes, List.flatMap_nil, List.length_nil] at hlen
      rw [if_pos (by omega)]
    | cons m0 rest =>
      have next : ∀ i a : Nat, a < m0.mLen → j + i = m.mLen + a → bytes[k + i]? = some (m0.mtod a) := fun i a ha hi => by
        rw [← hc.bytes, hl.get_next ha hi]
      simp only [List.head?_cons, Option.elim_some] at h
      rw [chainBytes_cons, List.length_append, bytes_length] at hlen
      by_cases hsum : m.mLen + m0.mLen < j + 4
      · simp only
        rw [if_pos (by omega), if_pos (by omega)]
      -- Only a word that starts its mbuf is left: the doubled offset is 0 there.
      obtain rfl : j = 0 := by omega
      simp only
      rw [if_neg (show ¬bytes.length < k + 4 by omega), if_neg (by omega)]
      split
      · rw [extractLong_buffer hb (here 0 (by omega)) (next 1 0 (by omega) (by omega)) (next 2 1 (by omega) (by omega))
          (next 3 2 (by omega) (by omega))]
        rfl
      split
      · rw [extractLong_buffer hb (here 0 (by omega)) (here 1 (by omega)) (next 2 0 (by omega) (by omega))
          (next 3 1 (by omega) (by omega))]
        rfl
      · rw [extractLong_buffer hb (here 0 (by omega)) (here 1 (by omega)) (here 2 (by omega))
          (next 3 0 (by omega) (by omega))]
        rfl

/-- `m_xhalf` against the half word of the buffer. -/
theorem mXhalf_agrees (hb : buf.Buffer bytes) (hc : ch.Chain bytes) (h : HalfAgrees ch k) :
    mXhalf ch.m ch.mNext k = if bytes.length < k + 2 then none else some (extractShort buf.p k) := by
  obtain ⟨-, h⟩ := h
  have hf := mIndex_found ch.m ch.mNext k
  simp only [hc.bytes] at h
  unfold mXhalf
  generalize mIndex ch.m ch.mNext k = r at hf h ⊢
  cases hf with
  | none hle =>
    rw [hc.bytes] at hle
    rw [if_pos (by omega)]
  | @some m rest j hl =>
    have hlt := hl.lt
    have hlen := hl.length
    rw [hc.bytes] at hlen
    simp only at h ⊢
    have here : ∀ i : Nat, j + i < m.mLen → bytes[k + i]? = some (m.mtod (j + i)) := fun i hi => by
      rw [← hc.bytes, hl.get_here hi]
    by_cases hin : j + 2 ≤ m.mLen
    · rw [if_pos (by omega), if_neg (by omega), extractShort_buffer hb (here 0 (by omega)) (here 1 (by omega))]
      rfl
    rw [if_neg (by omega)]
    cases rest with
    | nil =>
      simp only [chainBytes, List.flatMap_nil, List.length_nil] at hlen
      rw [if_pos (by omega)]
    | cons m0 rest =>
      have hm0 : 0 < m0.mLen := hc.nonempty m0 (hl.suffix.subset (by simp))
      rw [chainBytes_cons, List.length_append, bytes_length] at hlen
      have next : bytes[k + 1]? = some (m0.mtod 0) := by
        rw [← hc.bytes, hl.get_next (a := 0) hm0 (by omega)]
        rfl
      obtain rfl : j = 0 := by omega
      simp only
      rw [if_neg (by omega), extractShort_buffer hb (here 0 (by omega)) next]

theorem ldHalfInd_agrees (hb : buf.Buffer bytes) (hc : ch.Chain bytes) (hk : k < 2 ^ 31) (h : HalfAgrees ch k) :
    ldHalfInd ch k = ldHalfInd buf k := by
  rw [ldHalfInd_chain hc hk, ldHalfInd_buffer hb hc.length_pos hk, mXhalf_agrees hb hc h]

theorem ldHalfAbs_agrees (hb : buf.Buffer bytes) (hc : ch.Chain bytes) (hk : k < 2 ^ 31) (h : HalfAgrees ch k)
    (hin : k + 2 ≤ bytes.length) : ldHalfAbs ch k = ldHalfAbs buf k := by
  have h2 := toUnsigned_add (c := 2) hk (by omega)
  rw [ldHalfAbs_chain hc hk, mXhalf_agrees hb hc h, if_neg (by omega), ldHalfAbs, if_neg, Option.getD_some]
  simp only [GT.gt, BitVec.lt_def, BitVec.ofNat_eq_ofNat, h2, hb.buflen]
  omega

theorem mIndex_byte (hc : ch.Chain bytes) :
    (mIndex ch.m ch.mNext k).map (fun (m, _, j) => m.mtod j) = bytes[k]? := by
  have hf := mIndex_found ch.m ch.mNext k
  generalize mIndex ch.m ch.mNext k = r at hf ⊢
  cases hf with
  | none hle => rw [Option.map_none, List.getElem?_eq_none (by rwa [← hc.bytes])]
  | some hl =>
    have := hl.get_here (i := 0) hl.lt
    rw [← hc.bytes, ← Nat.add_zero k, this]
    simp

theorem ldByte_agrees {extend : Byte → Word} (hb : buf.Buffer bytes) (hc : ch.Chain bytes) (hk : k < 2 ^ 31)
    (hext : ∀ b, bytes[k]? = some b → extend b = b.setWidth 32) : ldByte extend ch k = ldByte extend buf k := by
  have hmap := congrArg (Option.map extend) (mIndex_byte (k := k) hc)
  rw [Option.map_map] at hmap
  rw [ldByte_chain extend hc, ldByte_buffer extend hb hc.length_pos hk]
  refine hmap.trans ?_
  cases hget : bytes[k]? with
  | none => rfl
  | some b => exact congrArg some (hext b hget)

theorem ldByteInd_agrees (hb : buf.Buffer bytes) (hc : ch.Chain bytes) (hk : k < 2 ^ 31) (h : ByteAgrees ch k) :
    ldByteInd ch k = ldByteInd buf k := by
  refine ldByte_agrees hb hc hk fun b hget => ?_
  have hmsb := h.2
  simp only [hc.bytes, Int.toNat_natCast, hget] at hmsb
  exact BitVec.signExtend_eq_setWidth_of_msb_false hmsb

/-- The sign does not reach the low four bits. -/
theorem ldMsh_agrees (hb : buf.Buffer bytes) (hc : ch.Chain bytes) (hk : k < 2 ^ 31) : ldMsh ch k = ldMsh buf k := by
  have hmap := congrArg (Option.map fun b : Byte => (b.signExtend 32 &&& 0xf#32) <<< 2) (mIndex_byte (k := k) hc)
  rw [Option.map_map] at hmap
  rw [ldMsh, ldMsh, ldByteInd, ldByte_chain _ hc, ldByte_buffer _ hb hc.length_pos hk, Option.map_map, Option.map_map]
  refine hmap.trans ?_
  cases bytes[k]? with
  | none => rfl
  | some b =>
    revert b
    decide

end Agrees

/-! ## Runs -/

/-- The load of `o`, if it has one, goes clear of what the paths do differently. -/
def Op.Agrees (ch : Packet) (s : State) (i : Insn) : Op → Prop
  | .ldWAbs => WordAgrees ch i.k.toInt
  | .ldWInd => WordAgrees ch (indexed s i)
  | .ldHAbs => HalfAgrees ch i.k.toInt ∧ i.k.toInt + 2 ≤ (chainBytes (ch.m :: ch.mNext)).length
  | .ldHInd => HalfAgrees ch (indexed s i)
  | .ldBAbs | .ldxMsh => 0 ≤ i.k.toInt
  | .ldBInd => ByteAgrees ch (indexed s i)
  | _ => True

theorem toInt_nat {w : Word} (h : 0 ≤ w.toInt) : ∃ n : Nat, n < 2 ^ 31 ∧ w.toInt = n :=
  ⟨w.toInt.toNat, by have := BitVec.toInt_lt (x := w); omega, by omega⟩

section Runs
variable {buf ch : Packet} {bytes : List Byte} {f : List Insn}

theorem exec_agrees (hb : buf.Buffer bytes) (hc : ch.Chain bytes) (wirelen : Word) {s : State} {i : Insn} {o : Op}
    (h : o.Agrees ch s i) : exec ch wirelen s i o = exec buf wirelen s i o := by
  cases o with
  | ldWAbs =>
    obtain ⟨n, hn, hk⟩ := toInt_nat h.1
    simp only [Op.Agrees, exec, hk] at h ⊢
    rw [ldWord_agrees hb hc hn h]
  | ldWInd =>
    obtain ⟨n, hn, hk⟩ := toInt_nat h.1
    simp only [Op.Agrees, exec, indexed, hk] at h ⊢
    rw [ldWord_agrees hb hc hn h]
  | ldHAbs =>
    obtain ⟨n, hn, hk⟩ := toInt_nat h.1.1
    simp only [Op.Agrees, exec, hk, hc.bytes] at h ⊢
    rw [ldHalfAbs_agrees hb hc hn h.1 (by omega)]
  | ldHInd =>
    obtain ⟨n, hn, hk⟩ := toInt_nat h.1
    simp only [Op.Agrees, exec, indexed, hk] at h ⊢
    rw [ldHalfInd_agrees hb hc hn h]
  | ldBAbs =>
    obtain ⟨n, hn, hk⟩ := toInt_nat h
    simp only [exec, hk, ldByteAbs]
    rw [ldByte_agrees hb hc hn fun _ _ => rfl]
  | ldBInd =>
    obtain ⟨n, hn, hk⟩ := toInt_nat h.1
    simp only [Op.Agrees, exec, indexed, hk] at h ⊢
    rw [ldByteInd_agrees hb hc hn h]
  | ldxMsh =>
    obtain ⟨n, hn, hk⟩ := toInt_nat h
    simp only [exec, hk]
    rw [ldMsh_agrees hb hc hn]
  | alu o src => cases o <;> cases src <;> rfl
  | _ => rfl

theorem step_agrees (hb : buf.Buffer bytes) (hc : ch.Chain bytes) (wirelen : Word) {s : State}
    (h : ∀ i o, fetch f s.pc = some i → switch i.code = some o → o.Agrees ch s i) :
    step f ch wirelen s = step f buf wirelen s := by
  unfold step
  cases hi : fetch f s.pc with
  | none => rfl
  | some i =>
    simp only
    cases ho : switch i.code with
    | none => rfl
    | some o => exact exec_agrees hb hc wirelen (h i o hi ho)

theorem run_agrees (hb : buf.Buffer bytes) (hc : ch.Chain bytes) (wirelen : Word) (n : Nat) (s : State)
    (h : ∀ t ∈ visited f ch wirelen n s, ∀ i o, fetch f t.pc = some i → switch i.code = some o → o.Agrees ch t i) :
    run f ch wirelen n s = run f buf wirelen n s := by
  induction n generalizing s with
  | zero => rfl
  | succ n ih =>
    have hstep := step_agrees hb hc wirelen (h s (by simp [visited]))
    simp only [run, ← hstep]
    cases hs : step f ch wirelen s with
    | ret v => rfl
    | fault e => rfl
    | run s' => exact ih s' fun t ht => h t (by simp [visited, hs, ht])

end Runs

/-- In every run of a filter on a chain of mbufs in which each load executed
agrees with the buffer's, it comes out as on the contiguous packet. -/
theorem chain_run (f : List Insn) (bytes : List Byte) (buf ch : Packet)
    (hb : buf.Buffer bytes) (hc : ch.Chain bytes) (wirelen : Word) (g : Garbage) (n : Nat)
    (h : ∀ s ∈ visited f ch wirelen n g.start, ∀ i o, fetch f s.pc = some i → switch i.code = some o →
      o.Agrees ch s i) :
    bpfFilter (some f) ch wirelen g n = bpfFilter (some f) buf wirelen g n :=
  run_agrees hb hc wirelen n g.start h

/-- `bytes` in an mbuf, with zeros around them. -/
def mbufOf (bytes : List Byte) : Mbuf := ⟨bytes.length, fun i => if i < 0 then 0 else bytes.getD i.toNat 0⟩

/-- `bytes` in a buffer. -/
def bufferOf (bytes : List Byte) : Packet :=
  ⟨(mbufOf bytes).mtod, mbufOf [], [], BitVec.ofNat 32 bytes.length⟩

/-- A chain of two mbufs. -/
def chainOf (first second : List Byte) : Packet := ⟨fun _ => 0, mbufOf first, [mbufOf second], 0⟩

theorem bufferOf_buffer {bytes : List Byte} (h : bytes.length < 2 ^ 32) : (bufferOf bytes).Buffer bytes := by
  refine ⟨?_, fun i b hi => ?_⟩
  · simp only [bufferOf, BitVec.toNat_ofNat]
    omega
  · simp [bufferOf, mbufOf, hi]

/-- A half word that straddles the mbufs, from the first byte of the first on. -/
theorem chain_run_straddle :
    let f := [stmt (BPF_LD ||| BPF_H ||| BPF_ABS) 0, stmt (BPF_RET ||| BPF_A) 0]
    bpfFilter (some f) (chainOf [0x12] [0x34]) 2 ⟨0, 0, fun _ => 0⟩ 2 =
      bpfFilter (some f) (bufferOf [0x12, 0x34]) 2 ⟨0, 0, fun _ => 0⟩ 2 :=
  chain_run _ [0x12, 0x34] _ _ (bufferOf_buffer (by decide)) ⟨rfl, by decide, by decide⟩ 2 _ 2 (by
    intro s hs i o hi ho
    have hpc : s.pc ∈ [0, (1 : Int)] := List.mem_map_of_mem (f := State.pc) hs
    simp only [List.mem_cons, List.not_mem_nil, or_false] at hpc
    rcases hpc with h | h <;> rw [h] at hi <;> cases hi <;> cases ho
    · exact ⟨⟨by decide, .inr (.inr rfl)⟩, by decide⟩
    · trivial)

/-- The word at 1 of 1, 2, 3, 4, 5, split after 3: the chain gives 3, 0, 4, 5. -/
theorem chain_word_doubled :
    let f := [stmt (BPF_LD ||| BPF_W ||| BPF_ABS) 1, stmt (BPF_RET ||| BPF_A) 0]
    bpfValidate f = true ∧ (bufferOf [1, 2, 3, 4, 5]).Buffer [1, 2, 3, 4, 5] ∧
      (chainOf [1, 2, 3] [4, 5]).Chain [1, 2, 3, 4, 5] ∧
      bpfFilter (some f) (bufferOf [1, 2, 3, 4, 5]) 5 ⟨0, 0, fun _ => 0⟩ 2 = some (.ret 0x02030405) ∧
      bpfFilter (some f) (chainOf [1, 2, 3] [4, 5]) 5 ⟨0, 0, fun _ => 0⟩ 2 = some (.ret 0x03000405) :=
  ⟨by decide, bufferOf_buffer (by decide), ⟨rfl, by decide, by decide⟩, by decide, by decide⟩

end BsdKernel.Bpf
