import BsdKernel.Lib.Trace
import BsdKernel.Net.SlDecode
/-!
# A line with both ends

A sender and the receiver at the other end, from `sl_compress_init` on. `InStep`
keeps the caches together: what the sender has in a cstate, the receiver has
under the same id, but for the IP checksum. Every datagram then comes out as it
went in (`line_roundtrip`), unless the sender copies a header of more than
`MAX_HDR` bytes or sends a special encoding for a datagram without `TH_URG`
after one with it.
-/

namespace BsdKernel.Slcompress

open BsdKernel.Lib

variable {m ip : Mem} {a b : Int} {v : BitVec 16} {rx : Receive} {dgram : List Byte} {cs : Cstate}
  {rest : List Cstate} {tx : Transmit}

/-! ## Datagrams -/

/-- The length of both headers. -/
def hdrLen (ip : Mem) : Nat := 4 * (ipHl ip + thOff ip (4 * ipHl ip))

/-- An IP/TCP datagram with correct lengths and IP header checksum and with the
reserved bits of the TCP header zero. -/
structure Datagram (d : List Byte) : Prop where
  hl : 5 ≤ ipHl (memOf d)
  off : 5 ≤ thOff (memOf d) (4 * ipHl (memOf d))
  fits : hdrLen (memOf d) ≤ d.length
  length : d.length < 2 ^ 16
  ipLen : get16 (memOf d) 2 = BitVec.ofNat 16 d.length
  proto : memOf d 9 = IPPROTO_TCP
  sum : hostShort (memOf d) 10 = cksum (set16 (memOf d) 10 0) 0 (2 * ipHl (memOf d))
  x2 : memOf d (4 * ipHl (memOf d) + 12) &&& 0x0f = 0
  reserved : memOf d (4 * ipHl (memOf d) + 13) &&& 0xc0 = 0

theorem memOf_nat {d : List Byte} {i : Nat} (h : i < d.length) : d[i]? = some (memOf d i) := by
  simp [memOf, List.getElem?_eq_getElem h]

theorem bytesAt_memOf (d : List Byte) : bytesAt (memOf d) 0 d.length = d := by
  refine List.ext_getElem? fun i => ?_
  by_cases hi : i < d.length
  · rw [bytesAt_get hi, memOf_nat hi, Int.zero_add]
  · rw [List.getElem?_eq_none (by simpa using hi), List.getElem?_eq_none (by simpa using hi)]

theorem bytesAt_eq {d : List Byte} (h : ∀ i : Nat, i < d.length → m (a + i) = memOf d i) :
    bytesAt m a d.length = d := by
  have hat : bytesAt m a d.length = bytesAt (memOf d) 0 d.length :=
    bytesAt_congr fun i hi => by rw [Int.zero_add, h i hi]
  rw [hat, bytesAt_memOf]

/-! ## The checksum -/

theorem cksumLoop_congr {m' : Mem} {n : Nat} (h : ∀ j : Int, 0 ≤ j → j < 2 * n → m (a + j) = m' (b + j)) :
    cksumLoop m a n = cksumLoop m' b n := by
  induction n generalizing a b with
  | zero => rfl
  | succ n ih =>
    have h0 := h 0 (by omega) (by omega)
    have h1 := h 1 (by omega) (by omega)
    simp only [Int.add_zero] at h0
    rw [cksumLoop, cksumLoop, hostShort, hostShort, h0, h1, ih fun j hj hj' => ?_]
    rw [Int.add_assoc, Int.add_assoc]
    exact h (2 + j) (by omega) (by omega)

theorem cksum_congr {m' : Mem} {n : Nat} (h : ∀ j : Int, 0 ≤ j → j < 2 * n → m (a + j) = m' (b + j)) :
    cksum m a n = cksum m' b n := by
  rw [cksum, cksum, cksumLoop_congr h]

theorem setHostShort_eq {d : Mem} (hv : hostShort d b = v) :
    setHostShort m a v a = d b ∧ setHostShort m a v (a + 1) = d (b + 1) := by
  subst hv
  refine ⟨?_, ?_⟩
  · rw [setHostShort, set8_ne (by omega), set8_same]
    exact BitVec.extractLsb'_append_eq_right
  · rw [setHostShort, set8_same]
    exact BitVec.extractLsb'_append_eq_left

theorem hostShort_setHostShort : hostShort (setHostShort m a v) a = v := by
  rw [hostShort, setHostShort, set8_same, set8_ne (by omega), set8_same]
  exact (BitVec.extractLsb'_append_extractLsb'_eq_extractLsb' rfl).trans BitVec.extractLsb'_eq_self

theorem set16_zero : set16 m a 0 a = 0 ∧ set16 m a 0 (a + 1) = 0 := by
  have h := set16_get16 (m := m) (a := a) fun _ => 0
  have hz : get16 (fun _ => 0) a = 0 := by simp only [get16]; decide
  rw [hz] at h
  exact ⟨h a (by omega) (by omega), h (a + 1) (by omega) (by omega)⟩

theorem setHostShort_ne (h : b < a ∨ a + 2 ≤ b) : setHostShort m a v b = m b := by
  rw [setHostShort, set8_ne (by omega), set8_ne (by omega)]

/-! ## Rebuilding a datagram -/

/-- The header in the receiver's cstate `i`. -/
def slot (rx : Receive) (i : Nat) : Mem := fun j => rx.rstate (csIpAddr i + j)

/-- What a memory agreeing with the datagram but for a zero checksum sums up to. -/
theorem rebuild_spec {f : Frame} {changes : Byte} {cp : Int} {hlen used : Nat} (hd : Datagram dgram)
    (hhlen : hlen = hdrLen (memOf dgram)) (hmax : hlen ≤ MAX_HDR) (hcs : rx.csHlen rx.lastRecv.toNat = hlen)
    (hhl : ipHl (slot rx rx.lastRecv.toNat) = ipHl (memOf dgram))
    (hnew : AgreeOff [(2, 2), (10, 2)] hlen (decode f.buf hlen changes ⟨slot rx rx.lastRecv.toNat, cp⟩).hdr (memOf dgram))
    (hz : (decode f.buf hlen changes ⟨slot rx rx.lastRecv.toNat, cp⟩).hdr 10 = 0 ∧
      (decode f.buf hlen changes ⟨slot rx rx.lastRecv.toNat, cp⟩).hdr 11 = 0)
    (hcp : (decode f.buf hlen changes ⟨slot rx rx.lastRecv.toNat, cp⟩).cp = f.bufp + used)
    (hlen' : f.len = used + (dgram.drop hlen).length)
    (hdata : bytesAt f.buf (f.bufp + used) (dgram.drop hlen).length = dgram.drop hlen) :
    ∃ hdr : Mem, AgreeOff [(10, 2)] hlen hdr (memOf dgram) ∧ hdr 10 = 0 ∧ hdr 11 = 0 ∧
      (rebuild rx f changes cp).comp = { rx with rstate := copy rx.rstate (csIpAddr rx.lastRecv.toNat) hdr 0 MAX_HDR } ∧
      bytesAt (rebuild rx f changes cp).buf (rebuild rx f changes cp).bufp (rebuild rx f changes cp).ret = dgram := by
  have hfits := hd.fits
  have hl := hd.hl
  have hoff := hd.off
  rw [← hhlen] at hfits
  have h40 : 4 * ipHl (memOf dgram) + 20 ≤ hlen := by rw [hhlen, hdrLen]; omega
  generalize hi : rx.lastRecv.toNat = i at *
  have hslot : (fun j => rx.rstate (csIpAddr i + j)) = slot rx i := rfl
  unfold rebuild
  simp only [hi, hcs, hslot]
  generalize decode f.buf hlen changes ⟨slot rx i, cp⟩ = d at *
  have hused : (d.cp - f.bufp).toNat = used := by omega
  have hnot : ¬f.len < used := by omega
  have hrest : f.len - used = dgram.length - hlen := by rw [hlen', List.length_drop]; omega
  rw [hused, if_neg hnot, hrest]
  have htotal : dgram.length - hlen + hlen = dgram.length := by omega
  simp only [htotal]
  generalize hhdr : set16 d.hdr 2 (BitVec.ofNat 16 dgram.length) = hdr
  have hagree : AgreeOff [(10, 2)] hlen hdr (memOf dgram) := by
    rw [← hhdr, ← hd.ipLen]
    exact hnew.settle (set16_get16 _) fun j hj => set16_ne hj
  have h10 : hdr 10 = 0 := by rw [← hhdr, set16_ne (by omega), hz.1]
  have h11 : hdr 11 = 0 := by rw [← hhdr, set16_ne (by omega), hz.2]
  refine ⟨hdr, hagree, h10, h11, rfl, ?_⟩
  -- The buffer before the checksum: the header from the cstate, the data behind it.
  generalize hal : d.cp - d.cp % 4 = al
  generalize hbuf1 : (if d.cp % 4 ≠ 0 then copy f.buf al f.buf d.cp (dgram.length - hlen) else f.buf) = buf1
  generalize hbuf2 : copy buf1 (al - hlen) _ (csIpAddr i) hlen = buf2
  have hhead : ∀ j : Int, 0 ≤ j → j < hlen → buf2 (al - hlen + j) = hdr j := fun j h0 hn => by
    rw [← hbuf2, copy_in h0 hn, copy_in h0 (by omega), Int.zero_add]
  have htail : ∀ j : Nat, j < dgram.length - hlen → buf2 (al + j) = f.buf (d.cp + j) := fun j hj => by
    rw [← hbuf2, copy_out (by omega), ← hbuf1]
    split
    · exact copy_in (by omega) (by omega)
    · rw [← hal]
      congr 1
      omega
  have hsum : hostShort (memOf dgram) 10 = cksum buf2 (al - hlen) (2 * ipHl (slot rx i)) := by
    rw [hd.sum, hhl]
    refine (cksum_congr fun j h0 hj => ?_).symm
    rw [hhead j h0 (by omega), Int.zero_add]
    by_cases hj10 : j < 10 ∨ 10 + 2 ≤ j
    · rw [set16_ne hj10]
      exact hagree j h0 (by omega) (by simpa using hj10)
    · obtain rfl | rfl : j = 10 ∨ j = 11 := by omega
      · rw [h10]; rfl
      · rw [h11]; rfl
  obtain ⟨hs10, hs11⟩ := setHostShort_eq (m := buf2) (a := al - hlen + 10) hsum
  refine bytesAt_eq fun j hj => ?_
  by_cases hjh : j < hlen
  · by_cases hj10 : (j : Int) < 10 ∨ 10 + 2 ≤ (j : Int)
    · rw [setHostShort_ne (by omega), hhead j (by omega) (by omega)]
      exact hagree j (by omega) (by omega) (by simpa using hj10)
    · obtain rfl | rfl : j = 10 ∨ j = 11 := by omega
      · exact hs10
      · rw [Int.add_assoc] at hs11
        exact hs11
  · have hdj := bytesAt_get (m := f.buf) (a := f.bufp + used) (i := j - hlen) (n := (dgram.drop hlen).length) (by
      rw [List.length_drop]; omega)
    rw [hdata, List.getElem?_drop, show hlen + (j - hlen) = j by omega, memOf_nat hj, Option.some.injEq] at hdj
    rw [setHostShort_ne (by omega), hdj, ← hcp, ← htail (j - hlen) (by omega)]
    congr 1
    omega

/-! ## Same connection, same header -/

theorem offByte_eq : ∀ {a b : Byte}, a &&& 0x0f = 0 → b &&& 0x0f = 0 → (a >>> 4).toNat = (b >>> 4).toNat → a = b := by
  have hshift : ∀ a : Byte, a &&& 0x0f = 0 → a = (a >>> 4) <<< 4 := by decide
  intro a b ha hb h
  rw [hshift a ha, hshift b hb, BitVec.eq_of_toNat_eq h]

/-- What the sender has compared leaves only the varying fields. -/
theorem agree_of_same (hconn : sameConn ip cs = true) (hsame : sameHeader ip cs.csIp = true)
    (hx : ip (4 * ipHl ip + 12) &&& 0x0f = 0) (hx' : cs.csIp (4 * ipHl cs.csIp + 12) &&& 0x0f = 0) :
    ipHl cs.csIp = ipHl ip ∧ hdrLen cs.csIp = hdrLen ip ∧ AgreeOff (varying (4 * ipHl ip)) (hdrLen ip) cs.csIp ip := by
  simp only [sameConn, sameHeader, Bool.decide_and, Bool.and_eq_true, decide_eq_true_eq] at hconn hsame
  obtain ⟨hsrc, hdst, hports⟩ := hconn
  obtain ⟨h0, h6, h8, hoff, hipopt, hthopt⟩ := hsame
  have hhl : ipHl cs.csIp = ipHl ip := by rw [ipHl, ipHl, get16_bytes h0 0 (by omega) (by omega)]
  rw [hhl] at hports hx'
  refine ⟨hhl, by rw [hdrLen, hdrLen, hhl, hoff], fun j hj0 hjn hE => ?_⟩
  have hlen : (hdrLen ip : Int) = 4 * ipHl ip + 4 * thOff ip (4 * ipHl ip) := by rw [hdrLen]; omega
  generalize hT : (4 * (ipHl ip : Int)) = T at *
  simp only [varying, rest, List.forall_mem_cons, List.not_mem_nil, false_implies, implies_true, and_true] at hE
  have hcase : j < 0 + 2 ∨ (6 ≤ j ∧ j < 6 + 2) ∨ (8 ≤ j ∧ j < 8 + 2) ∨ (12 ≤ j ∧ j < 12 + 4) ∨ (16 ≤ j ∧ j < 16 + 4) ∨
      (20 ≤ j ∧ j < T) ∨ (T ≤ j ∧ j < T + 4) ∨ j = T + 12 ∨ T + 20 ≤ j := by omega
  rcases hcase with h | h | h | h | h | h | h | rfl | h
  · exact (get16_bytes h0 j hj0 h).symm
  · exact (get16_bytes h6 j h.1 h.2).symm
  · exact (get16_bytes h8 j h.1 h.2).symm
  · exact (get32_bytes hsrc j h.1 h.2).symm
  · exact (get32_bytes hdst j h.1 h.2).symm
  · have := bytesAt_inj (hipopt (by omega)) (j - 20).toNat (by omega)
    rw [show (20 : Int) + ((j - 20).toNat : Int) = j by omega] at this
    exact this.symm
  · exact (get32_bytes hports j h.1 h.2).symm
  · exact (offByte_eq hx hx' hoff).symm
  · have := bytesAt_inj (hthopt (by omega)) (j - (T + 20)).toNat (by omega)
    rw [show T + 20 + ((j - (T + 20)).toNat : Int) = j by omega] at this
    exact this.symm

/-! ## Both ends in step -/

/-- The receiver has the sender's cached header `cs`, with the checksum zero. -/
structure Synced (rx : Receive) (cs : Cstate) : Prop where
  hl : 5 ≤ ipHl cs.csIp
  off : 5 ≤ thOff cs.csIp (4 * ipHl cs.csIp)
  max : hdrLen cs.csIp ≤ MAX_HDR
  plain : Plain (cs.csIp (4 * ipHl cs.csIp + 13))
  x2 : cs.csIp (4 * ipHl cs.csIp + 12) &&& 0x0f = 0
  csHlen : rx.csHlen cs.csId.toNat = hdrLen cs.csIp
  agree : AgreeOff [(10, 2)] (hdrLen cs.csIp) (slot rx cs.csId.toNat) cs.csIp
  sum : slot rx cs.csId.toNat 10 = 0 ∧ slot rx cs.csId.toNat 11 = 0

/-- The invariant of the line: a cstate of the sender is unused or the receiver
has it, and an id the sender leaves out is the one the receiver has. -/
structure InStep (tx : Transmit) (rx : Receive) : Prop where
  nonempty : tx.tstate ≠ []
  ids : (tx.tstate.map Cstate.csId).Nodup
  range : ∀ cs ∈ tx.tstate, cs.csId.toNat < MAX_STATES
  states : ∀ cs ∈ tx.tstate, cs.csIp 0 = 0 ∨ Synced rx cs
  xmit : tx.lastXmit.toNat < MAX_STATES → rx.toss = false ∧ rx.lastRecv = tx.lastXmit

theorem findConn_perm (ip : Mem) (ts : List Cstate) : (findConn ip ts).2.Perm ts := by
  cases ts with
  | nil => rfl
  | cons cs ts =>
    simp only [findConn]
    split
    · rfl
    cases hf : ts.find? (sameConn ip) with
    | some found =>
      obtain ⟨hp, as, bs, rfl, has⟩ := List.find?_eq_some_iff_append.1 hf
      have hne : ∀ a ∈ as, ¬sameConn ip a = true := fun a ha => by simpa using has a ha
      rw [List.eraseP_append_right _ hne, List.eraseP_cons_of_pos hp]
      exact (List.Perm.swap cs found (as ++ bs)).trans (List.Perm.cons cs List.perm_middle.symm)
    | none =>
      have hlast : (cs :: ts).dropLast ++ [ts.getLastD cs] = cs :: ts := by
        rw [← List.getLast_eq_getLastD (by simp), List.dropLast_append_getLast]
      refine (List.perm_append_singleton (ts.getLastD cs) (cs :: ts).dropLast).symm.trans ?_
      rw [hlast]

theorem findConn_found {ts : List Cstate} (h : findConn ip ts = (true, cs :: rest)) : sameConn ip cs = true := by
  cases ts with
  | nil => cases h
  | cons c ts =>
    simp only [findConn] at h
    split at h
    · next hc =>
      cases h
      exact hc
    cases hf : ts.find? (sameConn ip) with
    | some found =>
      rw [hf] at h
      cases h
      exact List.find?_some hf
    | none =>
      rw [hf] at h
      cases h

theorem Synced.frame {rx' : Receive} {i : Nat} (h : Synced rx cs) (hi : cs.csId.toNat ≠ i)
    (hout : ∀ a : Int, a < 116 * i ∨ 116 * i + 116 ≤ a → rx'.rstate a = rx.rstate a) : Synced rx' cs := by
  have hmax := h.max
  have hslot : ∀ j : Int, 0 ≤ j → j < MAX_HDR → slot rx' cs.csId.toNat j = slot rx cs.csId.toNat j := fun j h0 hj => by
    have hj' : j < 108 := hj
    simp only [slot, csIpAddr]
    exact hout _ (by omega)
  have hcs : rx'.csHlen cs.csId.toNat = rx.csHlen cs.csId.toNat := by
    simp only [Receive.csHlen, hostShort, csHlenAddr]
    rw [hout _ (by omega), hout _ (by omega)]
  refine { h with csHlen := hcs.trans h.csHlen, agree := fun j h0 hj hE => ?_, sum := ?_ }
  · rw [hslot j h0 (by omega)]
    exact h.agree j h0 hj hE
  · rw [hslot 10 (by omega) (by decide), hslot 11 (by omega) (by decide)]
    exact h.sum

/-- The line stays in step when both ends take over a new header. -/
theorem InStep.update {rx' : Receive} {hdr : Mem} (h : InStep tx rx) (hperm : (cs :: rest).Perm tx.tstate)
    (htoss : rx'.toss = false) (hrecv : rx'.lastRecv = cs.csId) (hsync : Synced rx' ⟨cs.csId, hdr⟩)
    (hout : ∀ a : Int, a < 116 * cs.csId.toNat ∨ 116 * cs.csId.toNat + 116 ≤ a → rx'.rstate a = rx.rstate a) :
    InStep ⟨⟨cs.csId, hdr⟩ :: rest, cs.csId⟩ rx' := by
  have hids : ((cs :: rest).map Cstate.csId).Nodup := (hperm.map _).nodup_iff.2 h.ids
  have hnot : ∀ c ∈ rest, c.csId ≠ cs.csId := fun c hc heq =>
    (List.nodup_cons.1 hids).1 (heq ▸ List.mem_map_of_mem hc)
  refine ⟨by simp, hids, fun c hc => ?_, fun c hc => ?_, fun _ => ⟨htoss, hrecv⟩⟩
  · rcases List.mem_cons.1 hc with rfl | hc
    · exact h.range cs (hperm.mem_iff.1 (by simp))
    · exact h.range c (hperm.mem_iff.1 (by simp [hc]))
  · rcases List.mem_cons.1 hc with rfl | hc
    · exact .inr hsync
    · refine (h.states c (hperm.mem_iff.1 (by simp [hc]))).imp_right fun hs => hs.frame (fun heq => ?_) hout
      exact hnot c hc (BitVec.eq_of_toNat_eq heq)

/-! ## One datagram -/

/-- The bytes in a receive buffer, with anything around them. -/
def frameOf (type : Nat) (bytes : List Byte) (bufp : Int) (around : Mem) : Frame :=
  ⟨type, bufp, fun i => if bufp ≤ i ∧ i < bufp + bytes.length then memOf bytes (i - bufp) else around i, bytes.length⟩

theorem frameOf_buf {type : Nat} {bytes : List Byte} {bufp j : Int} {around : Mem} (h0 : 0 ≤ j)
    (hj : j < bytes.length) : (frameOf type bytes bufp around).buf (bufp + j) = memOf bytes j := by
  simp only [frameOf]
  rw [if_pos (by omega)]
  congr 1
  omega

theorem frameOf_get {type : Nat} {bytes : List Byte} {bufp : Int} {around : Mem} {j : Nat} {b : Byte}
    (h : bytes[j]? = some b) : (frameOf type bytes bufp around).buf (bufp + j) = b := by
  have hj : j < bytes.length := (List.getElem?_eq_some_iff.1 h).1
  rw [memOf_nat hj, Option.some.injEq] at h
  rw [frameOf_buf (by omega) (by omega), h]

theorem frameOf_bytes (type : Nat) (bytes : List Byte) (bufp : Int) (around : Mem) :
    bytesAt (frameOf type bytes bufp around).buf bufp bytes.length = bytes :=
  bytesAt_eq fun _ hi => frameOf_buf (by omega) (by omega)

theorem hdrLen_congr (h : ∀ j : Int, 0 ≤ j → j < hdrLen ip → m j = ip j) (hl : 5 ≤ ipHl ip)
    (hoff : 5 ≤ thOff ip (4 * ipHl ip)) : ipHl m = ipHl ip ∧ hdrLen m = hdrLen ip := by
  have hlen : hdrLen ip = 4 * (ipHl ip + thOff ip (4 * ipHl ip)) := rfl
  have hhl : ipHl m = ipHl ip := by rw [ipHl, ipHl, h 0 (by omega) (by omega)]
  refine ⟨hhl, ?_⟩
  rw [hdrLen, hhl, thOff, h _ (by omega) (by omega)]
  rfl

theorem plain_of_flags : ∀ {f : Byte}, f &&& (TH_SYN ||| TH_FIN ||| TH_RST ||| TH_ACK) = TH_ACK → f &&& 0xc0 = 0 →
    Plain f := by
  decide

/-- The header the sender caches for a datagram, once the receiver has it. -/
theorem synced_of_agree {id : Byte} {c : Mem} (hd : Datagram dgram)
    (hplain : Plain (memOf dgram (4 * ipHl (memOf dgram) + 13))) (hmax : hdrLen (memOf dgram) ≤ MAX_HDR)
    (hcs : rx.csHlen id.toNat = hdrLen (memOf dgram))
    (hagree : AgreeOff [(10, 2)] (hdrLen (memOf dgram)) (slot rx id.toNat) (memOf dgram))
    (hsum : slot rx id.toNat 10 = 0 ∧ slot rx id.toNat 11 = 0) :
    Synced rx ⟨id, copy c 0 (memOf dgram) 0 (hdrLen (memOf dgram))⟩ := by
  have hcopy : ∀ j : Int, 0 ≤ j → j < hdrLen (memOf dgram) →
      copy c 0 (memOf dgram) 0 (hdrLen (memOf dgram)) j = memOf dgram j := fun j h0 hj => by
    have := @copy_in c (memOf dgram) 0 0 _ _ h0 hj
    simpa only [Int.zero_add] using this
  obtain ⟨hhl, hlen⟩ := hdrLen_congr hcopy hd.hl hd.off
  have hl := hd.hl
  have hoff := hd.off
  have hdef : hdrLen (memOf dgram) = 4 * (ipHl (memOf dgram) + thOff (memOf dgram) (4 * ipHl (memOf dgram))) := rfl
  constructor
  · rw [hhl]; exact hl
  · simp only
    rw [hhl, thOff, hcopy _ (by omega) (by omega)]
    exact hoff
  · rw [hlen]; exact hmax
  · simp only
    rw [hhl, hcopy _ (by omega) (by omega)]
    exact hplain
  · simp only
    rw [hhl, hcopy _ (by omega) (by omega)]
    exact hd.x2
  · rw [hlen]; exact hcs
  · intro j h0 hj hE
    rw [hlen] at hj
    simp only
    rw [hcopy j h0 hj]
    exact hagree j h0 hj hE
  · exact hsum

/-- What the receiver makes of a datagram sent for the cstate `id`: the datagram,
with its header in `rstate[id]` and nothing else changed. -/
structure Delivered (rx : Receive) (dgram : List Byte) (id : Byte) (hdr : Mem) (r : Received) : Prop where
  bytes : bytesAt r.buf r.bufp r.ret = dgram
  toss : r.comp.toss = false
  lastRecv : r.comp.lastRecv = id
  synced : Synced r.comp ⟨id, hdr⟩
  frame : ∀ a : Int, a < 116 * id.toNat ∨ 116 * id.toNat + 116 ≤ a → r.comp.rstate a = rx.rstate a

theorem receive_uncompressed (rx : Receive) {id : Byte} (c : Mem) (bufp : Int) (around : Mem) (hd : Datagram dgram)
    (hplain : Plain (memOf dgram (4 * ipHl (memOf dgram) + 13))) (hmax : hdrLen (memOf dgram) ≤ MAX_HDR)
    (hid : id.toNat < MAX_STATES) :
    ∃ r, slUncompressTcp rx (frameOf TYPE_UNCOMPRESSED_TCP (dgram.set 9 id) bufp around) = some r ∧
      Delivered rx dgram id (copy c 0 (memOf dgram) 0 (hdrLen (memOf dgram))) r := by
  have hfits := hd.fits
  have hl := hd.hl
  have hoff := hd.off
  have hdef : hdrLen (memOf dgram) = 4 * (ipHl (memOf dgram) + thOff (memOf dgram) (4 * ipHl (memOf dgram))) := rfl
  generalize hf : frameOf TYPE_UNCOMPRESSED_TCP (dgram.set 9 id) bufp around = f
  have htype : f.type = TYPE_UNCOMPRESSED_TCP := by rw [← hf]; rfl
  have hbufp : f.bufp = bufp := by rw [← hf]; rfl
  have hflen : f.len = dgram.length := by rw [← hf]; simp [frameOf]
  have hbuf9 : f.buf (bufp + 9) = id := by
    have h9 : 9 < dgram.length := by omega
    rw [← hf, frameOf_buf (by omega) (by simp; omega)]
    simp [memOf, h9]
  -- With the protocol put back the buffer has the datagram.
  have hip : ∀ j : Int, 0 ≤ j → j < dgram.length → set8 f.buf (bufp + 9) IPPROTO_TCP (bufp + j) = memOf dgram j := by
    intro j h0 hj
    by_cases hj9 : j = 9
    · rw [hj9, set8_same, hd.proto]
    · rw [set8_ne (by omega), ← hf, frameOf_buf h0 (by simpa using hj)]
      simp only [memOf, h0, if_true, List.getD_eq_getElem?_getD, List.getElem?_set]
      rw [if_neg (by omega)]
  have hlen : 4 * (ipHl (fun j => set8 f.buf (bufp + 9) IPPROTO_TCP (bufp + j)) +
      thOff (fun j => set8 f.buf (bufp + 9) IPPROTO_TCP (bufp + j))
        (4 * ipHl fun j => set8 f.buf (bufp + 9) IPPROTO_TCP (bufp + j))) = hdrLen (memOf dgram) :=
    (hdrLen_congr (fun j h0 hj => hip j h0 (by omega)) hl hoff).2
  have hmax' : hdrLen (memOf dgram) ≤ 108 := hmax
  unfold slUncompressTcp
  simp only [htype, if_true, hbufp, hbuf9, hlen]
  rw [if_neg (by omega)]
  refine ⟨_, rfl, ?_, rfl, rfl, ?_, ?_⟩
  · rw [hflen]
    exact bytesAt_eq fun j hj => hip j (by omega) (by omega)
  · refine synced_of_agree hd hplain hmax ?_ ?_ ?_
    · rw [Receive.csHlen, hostShort_setHostShort, BitVec.toNat_ofNat]
      omega
    · intro j h0 hj hE
      simp only [List.forall_mem_cons, List.not_mem_nil, false_implies, implies_true, and_true] at hE
      simp only [slot]
      rw [setHostShort_ne (by simp only [csHlenAddr, csIpAddr]; omega), set16_ne (by omega), copy_in h0 (by omega),
        Int.zero_add, hip j h0 (by omega)]
    · simp only [slot]
      rw [setHostShort_ne (by simp only [csHlenAddr, csIpAddr]; omega),
        setHostShort_ne (by simp only [csHlenAddr, csIpAddr]; omega), show csIpAddr id.toNat + 11 = csIpAddr id.toNat + 10 + 1 by omega]
      exact set16_zero
  · intro a ha
    simp only
    rw [setHostShort_ne (by simp only [csHlenAddr]; omega), set16_ne (by simp only [csIpAddr]; omega),
      copy_out (by simp only [csIpAddr]; omega)]

theorem compressed_eq {newSeq : List Byte} {cid : Bool} {hlen : Nat} {tcp : Byte} :
    compressed tx cs dgram cid hlen tcp newSeq =
      (if cid = false ∨ tx.lastXmit ≠ cs.csId then [encodedMask (memOf dgram) cs.csIp tcp true, cs.csId]
        else [encodedMask (memOf dgram) cs.csIp tcp false]) ++ encoded (memOf dgram) cs.csIp newSeq ++ dgram.drop hlen := by
  simp only [compressed, encoded, encodedMask, fullMask, decide_eq_true_eq, if_true, Bool.false_eq_true, if_false]
  split_ifs <;> simp

section Compressed
variable {rx : Receive} {cs : Cstate} {dgram newSeq : List Byte} {tcp : Byte}

/-- The receiver decodes against its copy as the sender encoded against its own. -/
theorem changes_slot {hlen : Nat} {hdr c : Mem} (hagree : AgreeOff [(10, 2)] hlen hdr c) (hT : 5 ≤ ipHl ip)
    (hTn : 4 * ipHl ip + 20 ≤ hlen) (hc : Changes ip c hlen tcp newSeq) :
    Changes ip hdr hlen tcp newSeq ∧ encoded ip hdr newSeq = encoded ip c newSeq ∧
      ∀ b, encodedMask ip hdr tcp b = encodedMask ip c tcp b := by
  have h16 : ∀ a : Int, 12 ≤ a → a + 2 ≤ hlen → get16 hdr a = get16 c a := fun a h0 hn =>
    hagree.get16 (by omega) hn (by simp; omega)
  have h32 : ∀ a : Int, 12 ≤ a → a + 4 ≤ hlen → get32 hdr a = get32 c a := fun a h0 hn =>
    hagree.get32 (by omega) hn (by simp; omega)
  have h2 : get16 hdr 2 = get16 c 2 := hagree.get16 (by omega) (by omega) (by simp)
  have h4 : get16 hdr 4 = get16 c 4 := hagree.get16 (by omega) (by omega) (by simp)
  have hdeltas : deltas ip hdr = deltas ip c := by
    simp only [deltas]
    rw [h16 _ (by omega) (by omega), h32 _ (by omega) (by omega), h32 _ (by omega) (by omega)]
  have hlast : lastData hdr hlen = lastData c hlen := by rw [lastData, lastData, h2]
  have hurp := h16 (4 * ipHl ip + 18) (by omega) (by omega)
  refine ⟨?_, by simp only [encoded, h4], fun b => by simp only [encodedMask, h4]⟩
  cases hc with
  | fields hu hA hS hI hD =>
    rw [← hdeltas] at hu hA hS hI hD ⊢
    rw [← hurp] at hu
    exact .fields hu hA hS hI hD
  | special a hu hp hw hA hS hne =>
    rw [← hdeltas] at hu hw hA hS hne
    rw [← hurp] at hp
    rw [← hlast] at hA hS
    exact .special a hu hp hw hA hS hne

/-- Rebuilding from the packet behind the mask and id `start`. -/
theorem rebuild_delivered (start : List Byte) (c : Bool) (bufp : Int) (around : Mem) (hs : Synced rx cs)
    (hrecv : rx.lastRecv = cs.csId) (htoss : rx.toss = false) (hd : Datagram dgram)
    (hplain : Plain (memOf dgram (4 * ipHl (memOf dgram) + 13))) (hconn : sameConn (memOf dgram) cs = true)
    (hsame : sameHeader (memOf dgram) cs.csIp = true) (hmax : hdrLen (memOf dgram) ≤ MAX_HDR)
    (hc : Changes (memOf dgram) cs.csIp (hdrLen (memOf dgram)) tcp newSeq)
    (hspecial : tcp = SPECIAL_I ∨ tcp = SPECIAL_D → cs.csIp (4 * ipHl (memOf dgram) + 13) &&& TH_URG = 0) :
    Delivered rx dgram cs.csId (copy cs.csIp 0 (memOf dgram) 0 (hdrLen (memOf dgram)))
      (rebuild rx (frameOf TYPE_COMPRESSED_TCP
          (start ++ encoded (memOf dgram) cs.csIp newSeq ++ dgram.drop (hdrLen (memOf dgram))) bufp around)
        (encodedMask (memOf dgram) cs.csIp tcp c) (bufp + start.length)) := by
  have hl := hd.hl
  have hoff := hd.off
  have hdef : hdrLen (memOf dgram) = 4 * (ipHl (memOf dgram) + thOff (memOf dgram) (4 * ipHl (memOf dgram))) := rfl
  have hmax' : hdrLen (memOf dgram) ≤ 108 := hmax
  obtain ⟨hhl, hlen, hvary⟩ := agree_of_same hconn hsame hd.x2 hs.x2
  have hagree := hs.agree
  have hcs := hs.csHlen
  have hold := hs.plain
  rw [hlen] at hagree hcs
  rw [hhl] at hold
  obtain ⟨hc', henc, hmask⟩ := changes_slot hagree hl (by omega) hc
  have hvary' : AgreeOff (varying (4 * ipHl (memOf dgram))) (hdrLen (memOf dgram)) (slot rx cs.csId.toNat) (memOf dgram) :=
    (hagree.mono (by simp [varying, rest])).trans hvary
  have hslotHl : ipHl (slot rx cs.csId.toNat) = ipHl (memOf dgram) := by
    rw [ipHl, hagree 0 (by omega) (by omega) (by simp)]
    exact hhl
  have hslotFlags : slot rx cs.csId.toNat (4 * ipHl (memOf dgram) + 13) = cs.csIp (4 * ipHl (memOf dgram) + 13) :=
    hagree _ (by omega) (by omega) (by simp; omega)
  generalize hf : frameOf TYPE_COMPRESSED_TCP _ bufp around = f
  have hbufp : f.bufp = bufp := by rw [← hf]; rfl
  obtain ⟨hbuf, hdata⟩ := bytesAt_append (frameOf_bytes TYPE_COMPRESSED_TCP
    (start ++ encoded (memOf dgram) cs.csIp newSeq ++ dgram.drop (hdrLen (memOf dgram))) bufp around)
  rw [hf] at hbuf hdata
  obtain ⟨-, hbuf⟩ := bytesAt_append hbuf
  rw [← henc] at hbuf hdata
  obtain ⟨hnew, hkept, hcp⟩ := decode_header (c := c) rfl (by omega) (by omega) hslotHl hvary' (hslotFlags ▸ hold) hplain hc'
    (fun h => hslotFlags ▸ hspecial h) hbuf
  rw [hmask] at hnew hkept hcp
  have hz := hs.sum
  rw [← hkept 10 (by omega) (by omega) (by simp [done]; omega), ← hkept 11 (by omega) (by omega) (by simp [done]; omega)] at hz
  have hcp' : f.bufp + ↑(start.length + (encoded (memOf dgram) (slot rx cs.csId.toNat) newSeq).length) =
      bufp + start.length + (encoded (memOf dgram) (slot rx cs.csId.toNat) newSeq).length := by
    rw [hbufp, Int.natCast_add, Int.add_assoc]
  have hflen : f.len = start.length + (encoded (memOf dgram) (slot rx cs.csId.toNat) newSeq).length +
      (dgram.drop (hdrLen (memOf dgram))).length := by
    rw [← hf, henc]
    simp only [frameOf, List.length_append]
  rw [List.length_append, ← hbufp] at hdata
  rw [← hcp'] at hcp
  rw [← hrecv] at hcs hslotHl hnew hz hcp hflen hdata
  obtain ⟨hdr, ha, h10, h11, hcomp, hbytes⟩ := rebuild_spec hd rfl hmax hcs hslotHl hnew hz hcp hflen hdata
  have hslot' : ∀ j : Int, 0 ≤ j → j < MAX_HDR →
      slot { rx with rstate := copy rx.rstate (csIpAddr rx.lastRecv.toNat) hdr 0 MAX_HDR } rx.lastRecv.toNat j = hdr j :=
    fun j h0 hj => (copy_in h0 hj).trans (by rw [Int.zero_add])
  refine ⟨hbytes, by rw [hcomp]; exact htoss, by rw [hcomp]; exact hrecv, synced_of_agree hd hplain hmax ?_ ?_ ?_, ?_⟩
  · rw [hcomp, ← hcs, Receive.csHlen, Receive.csHlen, hostShort, hostShort, ← hrecv]
    simp only
    rw [copy_out (by simp only [csHlenAddr, csIpAddr]; omega), copy_out (by simp only [csHlenAddr, csIpAddr]; omega)]
  · intro j h0 hj hE
    rw [hcomp, ← hrecv, hslot' j h0 (by omega)]
    exact ha j h0 hj hE
  · rw [hcomp, ← hrecv, hslot' 10 (by omega) (by decide), hslot' 11 (by omega) (by decide)]
    exact ⟨h10, h11⟩
  · intro a ha
    rw [hcomp]
    exact copy_out (by simp only [csIpAddr, MAX_HDR, hrecv]; omega)

theorem receive_compressed (cid : Bool) (bufp : Int) (around : Mem) (h : InStep tx rx) (hs : Synced rx cs)
    (hid : cs.csId.toNat < MAX_STATES) (hd : Datagram dgram)
    (hplain : Plain (memOf dgram (4 * ipHl (memOf dgram) + 13))) (hconn : sameConn (memOf dgram) cs = true)
    (hsame : sameHeader (memOf dgram) cs.csIp = true) (hmax : hdrLen (memOf dgram) ≤ MAX_HDR)
    (hc : Changes (memOf dgram) cs.csIp (hdrLen (memOf dgram)) tcp newSeq)
    (hspecial : tcp = SPECIAL_I ∨ tcp = SPECIAL_D → cs.csIp (4 * ipHl (memOf dgram) + 13) &&& TH_URG = 0) :
    ∃ r, slUncompressTcp rx (frameOf TYPE_COMPRESSED_TCP
        (compressed tx cs dgram cid (hdrLen (memOf dgram)) tcp newSeq) bufp around) = some r ∧
      Delivered rx dgram cs.csId (copy cs.csIp 0 (memOf dgram) 0 (hdrLen (memOf dgram))) r := by
  obtain ⟨u, w, a, s, htcp⟩ : ∃ u w a s, tcp = tcpMask u w a s := by
    cases hc with
    | fields => exact ⟨_, _, _, _, changes_eq _⟩
    | special a => exact ⟨_, _, _, _, rfl⟩
  have hbit : ∀ c, encodedMask (memOf dgram) cs.csIp tcp c &&& NEW_C ≠ 0 ↔ c = true := fun c => by
    rw [encodedMask, htcp]
    exact (maskBits_fullMask u w a s _ _ c).conn
  let rx1 : Receive := { rx with toss := false, lastRecv := cs.csId }
  have hs1 : Synced rx1 cs := ⟨hs.hl, hs.off, hs.max, hs.plain, hs.x2, hs.csHlen, hs.agree, hs.sum⟩
  rw [compressed_eq]
  split
  · next hexp =>
    have hdel := rebuild_delivered [encodedMask (memOf dgram) cs.csIp tcp true, cs.csId] true bufp around hs1 rfl rfl
      hd hplain hconn hsame hmax hc hspecial
    refine ⟨_, ?_, hdel.bytes, hdel.toss, hdel.lastRecv, hdel.synced, hdel.frame⟩
    generalize hf : frameOf TYPE_COMPRESSED_TCP _ bufp around = f
    have htype : f.type = TYPE_COMPRESSED_TCP := by rw [← hf]; rfl
    have hbufp : f.bufp = bufp := by rw [← hf]; rfl
    have hb0 : f.buf bufp = encodedMask (memOf dgram) cs.csIp tcp true := by
      rw [← hf]
      exact (congrArg _ (Int.add_zero bufp)).symm.trans (frameOf_get (j := 0) rfl)
    have hb1 : f.buf (bufp + 1) = cs.csId := by
      rw [← hf]
      exact frameOf_get (j := 1) rfl
    unfold slUncompressTcp
    simp only [hbufp, hb0, hb1]
    rw [if_neg (by rw [htype]; decide), if_pos htype, if_pos ((hbit true).2 rfl), if_neg (by omega)]
    rfl
  · next himp =>
    rw [not_or, not_not] at himp
    obtain ⟨htoss, hrecv⟩ := h.xmit (himp.2 ▸ hid)
    rw [himp.2] at hrecv
    have hdel := rebuild_delivered [encodedMask (memOf dgram) cs.csIp tcp false] false bufp around hs hrecv htoss
      hd hplain hconn hsame hmax hc hspecial
    refine ⟨_, ?_, hdel⟩
    generalize hf : frameOf TYPE_COMPRESSED_TCP _ bufp around = f
    have htype : f.type = TYPE_COMPRESSED_TCP := by rw [← hf]; rfl
    have hbufp : f.bufp = bufp := by rw [← hf]; rfl
    have hb0 : f.buf bufp = encodedMask (memOf dgram) cs.csIp tcp false := by
      rw [← hf]
      exact (congrArg _ (Int.add_zero bufp)).symm.trans (frameOf_get (j := 0) rfl)
    unfold slUncompressTcp
    simp only [hbufp, hb0]
    rw [if_neg (by rw [htype]; decide), if_pos htype, if_neg (mt (hbit false).1 (by simp)), if_neg (by simp [htoss]),
      if_pos (hrecv ▸ hid)]
    rfl

end Compressed

/-! ## Lines -/

/-- The two ends. -/
structure Line where
  tx : Transmit
  rx : Receive

def Line.init : Line := ⟨Transmit.init, Receive.init⟩

/-- A datagram to send, whether ids may be left out, and the buffer the receiver
puts the packet in. -/
structure Sending where
  dgram : List Byte
  compressCid : Bool
  bufp : Int
  around : Mem

/-- A datagram through both ends: the line after it and what comes out. -/
def transfer (l : Line) (s : Sending) : Option (Line × List Byte) :=
  match slCompressTcp l.tx s.dgram s.compressCid with
  | none => none
  | some (tx, type, bytes) =>
    if type = TYPE_IP then some (⟨tx, l.rx⟩, bytes)
    else
      match slUncompressTcp l.rx (frameOf type bytes s.bufp s.around) with
      | none => none
      | some r => some (⟨tx, r.comp⟩, bytesAt r.buf r.bufp r.ret)

/-- The line after a datagram. -/
def Line.next (l : Line) (s : Sending) : Line := ((transfer l s).map Prod.fst).getD l

/-- What comes out for each datagram. -/
def received (l : Line) : List Sending → List (Option (List Byte))
  | [] => []
  | s :: ss => (transfer l s).map Prod.snd :: received (l.next s) ss

/-- `sl_compress_tcp` caches the header of this datagram. -/
def Compressible (dgram : List Byte) : Prop :=
  get16 (memOf dgram) 6 &&& 0x3fff = 0 ∧ 40 ≤ dgram.length ∧
    memOf dgram (4 * ipHl (memOf dgram) + 13) &&& (TH_SYN ||| TH_FIN ||| TH_RST ||| TH_ACK) = TH_ACK

/-- A datagram without `TH_URG` that would be sent with a special encoding against
the cached header `cs` with `TH_URG`. -/
def SpecialAfterUrg (ip cs : Mem) : Prop :=
  sameHeader ip cs = true ∧ cs (4 * ipHl ip + 13) &&& TH_URG ≠ 0 ∧ (deltas ip cs).urg = false ∧
    get16 ip (4 * ipHl ip + 18) = get16 cs (4 * ipHl ip + 18) ∧ (deltas ip cs).deltaW = 0 ∧
    (deltas ip cs).deltaS ≠ 0 ∧ (deltas ip cs).deltaS = lastData cs (hdrLen ip) ∧
    ((deltas ip cs).deltaA = 0 ∨ (deltas ip cs).deltaA = (deltas ip cs).deltaS)

/-- The datagram meets neither of the two defects. -/
def Clear (tx : Transmit) (dgram : List Byte) : Prop :=
  Compressible dgram → hdrLen (memOf dgram) ≤ MAX_HDR ∧
    ∀ cs rest, findConn (memOf dgram) tx.tstate = (true, cs :: rest) → ¬SpecialAfterUrg (memOf dgram) cs.csIp

theorem findConn_cons (h : InStep tx rx) (ip : Mem) :
    ∃ found cs rest, findConn ip tx.tstate = (found, cs :: rest) ∧ (cs :: rest).Perm tx.tstate := by
  have hperm := findConn_perm ip tx.tstate
  rcases hf : findConn ip tx.tstate with ⟨found, _ | ⟨cs, rest⟩⟩ <;> rw [hf] at hperm
  · exact absurd hperm.nil_eq.symm h.nonempty
  · exact ⟨found, cs, rest, rfl, hperm⟩

/-- A cstate that was never used has not the header of a datagram. -/
theorem synced_of_same (h : InStep tx rx) (hd : Datagram dgram) (hcs : cs ∈ tx.tstate)
    (hsame : sameHeader (memOf dgram) cs.csIp = true) : Synced rx cs := by
  refine (h.states cs hcs).resolve_left fun h0 => ?_
  simp only [sameHeader, Bool.decide_and, Bool.and_eq_true, decide_eq_true_eq] at hsame
  have hl := hd.hl
  rw [ipHl, get16_bytes hsame.1 0 (by omega) (by omega), h0] at hl
  exact absurd hl (by decide)

theorem slCompressTcp_ip {cid : Bool} (h : ¬Compressible dgram) :
    slCompressTcp tx dgram cid = some (tx, TYPE_IP, dgram) := by
  unfold slCompressTcp
  simp only
  by_cases h1 : get16 (memOf dgram) 6 &&& 0x3fff ≠ 0 ∨ dgram.length < 40
  · rw [if_pos h1]
  · rw [if_neg h1, if_pos]
    rw [not_or, not_not] at h1
    exact fun h2 => h ⟨h1.1, by omega, h2⟩

theorem slCompressTcp_found {found : Bool} (cid : Bool) (h : Compressible dgram)
    (hmax : hdrLen (memOf dgram) ≤ MAX_HDR) (hfc : findConn (memOf dgram) tx.tstate = (found, cs :: rest)) :
    let tx' : Transmit := ⟨⟨cs.csId, copy cs.csIp 0 (memOf dgram) 0 (hdrLen (memOf dgram))⟩ :: rest, cs.csId⟩
    slCompressTcp tx dgram cid =
      match if found = true ∧ sameHeader (memOf dgram) cs.csIp = true then
        changedFields (memOf dgram) cs.csIp (hdrLen (memOf dgram)) else none with
      | some (tcp, newSeq) =>
        some (tx', TYPE_COMPRESSED_TCP, compressed tx cs dgram cid (hdrLen (memOf dgram)) tcp newSeq)
      | none => some (tx', TYPE_UNCOMPRESSED_TCP, dgram.set 9 cs.csId) := by
  obtain ⟨hoff, h40, hflags⟩ := h
  have hmax' : ¬4 * (ipHl (memOf dgram) + thOff (memOf dgram) (4 * ipHl (memOf dgram))) > MAX_HDR := Nat.not_lt.2 hmax
  unfold slCompressTcp
  simp only [hfc]
  rw [if_neg (by rw [not_or, not_not]; exact ⟨hoff, by omega⟩), if_neg (not_not.2 hflags), if_neg hmax']
  rfl

theorem slCompressTcp_cases {found : Bool} (cid : Bool) (h : Compressible dgram)
    (hmax : hdrLen (memOf dgram) ≤ MAX_HDR) (hfc : findConn (memOf dgram) tx.tstate = (found, cs :: rest)) :
    let tx' : Transmit := ⟨⟨cs.csId, copy cs.csIp 0 (memOf dgram) 0 (hdrLen (memOf dgram))⟩ :: rest, cs.csId⟩
    slCompressTcp tx dgram cid = some (tx', TYPE_UNCOMPRESSED_TCP, dgram.set 9 cs.csId) ∨
      found = true ∧ sameHeader (memOf dgram) cs.csIp = true ∧ ∃ tcp newSeq,
        changedFields (memOf dgram) cs.csIp (hdrLen (memOf dgram)) = some (tcp, newSeq) ∧
        slCompressTcp tx dgram cid =
          some (tx', TYPE_COMPRESSED_TCP, compressed tx cs dgram cid (hdrLen (memOf dgram)) tcp newSeq) := by
  intro tx'
  rw [slCompressTcp_found cid h hmax hfc]
  by_cases hs : found = true ∧ sameHeader (memOf dgram) cs.csIp = true
  · rw [if_pos hs]
    rcases changedFields (memOf dgram) cs.csIp (hdrLen (memOf dgram)) with _ | ⟨tcp, newSeq⟩
    · exact .inl rfl
    · exact .inr ⟨hs.1, hs.2, tcp, newSeq, rfl, rfl⟩
  · rw [if_neg hs]
    exact .inl rfl

/-- One datagram comes through, and the line stays in step. -/
theorem transfer_spec {l : Line} {s : Sending} (h : InStep l.tx l.rx) (hd : Datagram s.dgram)
    (hclear : Clear l.tx s.dgram) : ∃ l' : Line, transfer l s = some (l', s.dgram) ∧ InStep l'.tx l'.rx := by
  by_cases hcomp : Compressible s.dgram
  · obtain ⟨hmax, hurg⟩ := hclear hcomp
    obtain ⟨found, cs, rest, hfc, hperm⟩ := findConn_cons h (memOf s.dgram)
    have hcs : cs ∈ l.tx.tstate := hperm.mem_iff.1 (by simp)
    have hid := h.range cs hcs
    have hplain := plain_of_flags hcomp.2.2 hd.reserved
    unfold transfer
    rcases slCompressTcp_cases s.compressCid hcomp hmax hfc with hsent | ⟨rfl, hsame, tcp, newSeq, hfields, hsent⟩
    · obtain ⟨r, hr, hdel⟩ := receive_uncompressed l.rx cs.csIp s.bufp s.around hd hplain hmax hid
      rw [hsent]
      simp only [hr, if_neg (show ¬TYPE_UNCOMPRESSED_TCP = TYPE_IP by decide), hdel.bytes]
      exact ⟨_, rfl, h.update hperm hdel.toss hdel.lastRecv hdel.synced hdel.frame⟩
    · have hchanges := changedFields_spec hfields
      have hspecial : tcp = SPECIAL_I ∨ tcp = SPECIAL_D → cs.csIp (4 * ipHl (memOf s.dgram) + 13) &&& TH_URG = 0 := by
        intro ht
        cases hchanges with
        | fields _ _ _ hI hD => exact absurd ht (not_or.2 ⟨hI, hD⟩)
        | special a hu hp hw hA hS hne =>
          by_contra hset
          refine hurg cs rest hfc ⟨hsame, hset, hu, hp, hw, hne, hS, ?_⟩
          cases a with
          | true => exact .inl hA
          | false => exact .inr (hA.trans hS.symm)
      obtain ⟨r, hr, hdel⟩ := receive_compressed s.compressCid s.bufp s.around h
        (synced_of_same h hd hcs hsame) hid hd hplain (findConn_found hfc) hsame hmax hchanges hspecial
      rw [hsent]
      simp only [hr, if_neg (show ¬TYPE_COMPRESSED_TCP = TYPE_IP by decide), hdel.bytes]
      exact ⟨_, rfl, h.update hperm hdel.toss hdel.lastRecv hdel.synced hdel.frame⟩
  · refine ⟨l, ?_, h⟩
    unfold transfer
    rw [slCompressTcp_ip hcomp]
    simp only [if_true]

theorem inStep_init : InStep Line.init.tx Line.init.rx := by
  refine ⟨by decide, by decide, by decide, fun cs hcs => .inl ?_, fun h => absurd h (by decide)⟩
  obtain ⟨i, -, rfl⟩ := List.mem_map.1 hcs
  rfl

/-- On a line from `sl_compress_init` on, every sequence of datagrams comes out as
it went in, if none whose header is cached has more than `MAX_HDR` bytes of it
and none without `TH_URG` is sent with a special encoding after one with it. -/
theorem line_roundtrip (ss : List Sending) (hd : ∀ s ∈ ss, Datagram s.dgram)
    (hclear : Along Line.next (fun l s => Clear l.tx s.dgram) Line.init ss) :
    received Line.init ss = ss.map fun s => some s.dgram := by
  have hinit := inStep_init
  generalize Line.init = l at *
  induction ss generalizing l with
  | nil => rfl
  | cons s ss ih =>
    obtain ⟨l', ht, hstep⟩ := transfer_spec hinit (hd s (by simp)) hclear.1
    have hnext : l.next s = l' := by rw [Line.next, ht]; rfl
    have hrest := hclear.2
    rw [hnext] at hrest
    rw [received, ht, hnext, ih (fun s' hs' => hd s' (by simp [hs'])) l' hrest hstep]
    rfl

/-- A datagram of 41 bytes with urgent pointer 1; `sum` is the second byte of its
IP checksum. -/
def oneByte (id sum seq flags data : Byte) : List Byte :=
  [0x45, 0, 0, 41, 0, id, 0, 0, 64, 6, 102, sum, 10, 0, 0, 1, 10, 0, 0, 2,
    0, 1, 0, 2, 0, 0, 0, seq, 0, 0, 0, 0, 0x50, flags, 0, 0, 0, 0, 0, 1, data]

def sendOneByte (id sum seq flags data : Byte) : Sending := ⟨oneByte id sum seq flags data, true, 0, fun _ => 0⟩

theorem datagram_oneByte : Datagram (oneByte 0 205 0 0x10 7) ∧ Datagram (oneByte 0 205 0 0x30 7) ∧
    Datagram (oneByte 1 204 1 0x10 8) := by
  refine ⟨?_, ?_, ?_⟩ <;> constructor <;> decide

/-- Two datagrams in a row, the second sent as `SPECIAL_D`. -/
theorem line_roundtrip_special :
    received Line.init [sendOneByte 0 205 0 0x10 7, sendOneByte 1 204 1 0x10 8] =
      [some (oneByte 0 205 0 0x10 7), some (oneByte 1 204 1 0x10 8)] :=
  line_roundtrip _ (by
    intro s hs
    simp only [List.mem_cons, List.not_mem_nil, or_false] at hs
    rcases hs with rfl | rfl
    · exact datagram_oneByte.1
    · exact datagram_oneByte.2.2) (by
    have hold : ∀ l : Line, ∀ s : Sending, ((findConn (memOf s.dgram) l.tx.tstate).2.head?.map fun c =>
        c.csIp 33 &&& TH_URG) = some 0 → 4 * ipHl (memOf s.dgram) = 20 → hdrLen (memOf s.dgram) ≤ MAX_HDR →
        Clear l.tx s.dgram := by
      intro l s hurg hT hmax _
      refine ⟨hmax, fun cs rest hf hspecial => hspecial.2.1 ?_⟩
      rw [hf] at hurg
      rw [show (4 * (ipHl (memOf s.dgram) : Int) + 13) = 33 by omega]
      simpa using hurg
    refine ⟨hold _ _ ?_ ?_ ?_, hold _ _ ?_ ?_ ?_, trivial⟩ <;> decide +kernel)

/-- After a datagram with `TH_URG` the receiver sets it in the next one too, which
was sent as `SPECIAL_D` without it. -/
theorem line_urgent_kept :
    (Datagram (oneByte 0 205 0 0x30 7) ∧ Datagram (oneByte 1 204 1 0x10 8)) ∧
      received Line.init [sendOneByte 0 205 0 0x30 7, sendOneByte 1 204 1 0x10 8] =
        [some (oneByte 0 205 0 0x30 7), some (oneByte 1 204 1 0x30 8)] :=
  ⟨⟨datagram_oneByte.2.1, datagram_oneByte.2.2⟩, by decide +kernel⟩

end BsdKernel.Slcompress
