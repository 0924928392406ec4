import BsdKernel.Net.Slcompress
/-!
# A compressed header decodes to the header it was made from

The sender's cached header `cs` and the receiver's copy `hdr` of it agree but for
the IP checksum. `Stage ip hdr E D` follows the receiver through the fields:
outside `E` the header is already the datagram's, outside `D` it is still the
cached one. Each field either is decoded from its change or has not changed;
`decode_header` puts them together. The special encodings leave `TH_URG` as it
was in the cached header, so they need `SpecialFlags`.
-/

namespace BsdKernel.Slcompress

open BsdKernel.Lib

variable {l newSeq : List Byte}

/-! ## Numbers on the line -/

theorem setWidth_low (n : BitVec 32) (h : (n.setWidth 16).toNat < 256) :
    (n.extractLsb' 0 8).setWidth 16 = n.setWidth 16 := by
  refine BitVec.eq_of_toNat_eq ?_
  simp only [BitVec.toNat_setWidth, BitVec.extractLsb'_toNat, Nat.shiftRight_zero] at h ⊢
  omega

theorem append_low (n : BitVec 32) : (n.extractLsb' 8 8 ++ n.extractLsb' 0 8 : BitVec 16) = n.setWidth 16 := by
  rw [BitVec.setWidth_eq_extractLsb' (by decide)]
  exact BitVec.extractLsb'_append_extractLsb'_eq_extractLsb' rfl

theorem setWidth_setWidth_of_le {n : BitVec 32} (h : ¬n > 0xffff) : (n.setWidth 16).setWidth 32 = n := by
  have h' : ¬n.toNat > 65535 := h
  refine BitVec.eq_of_toNat_eq ?_
  simp only [BitVec.toNat_setWidth]
  omega

theorem setWidth_sub (x y : BitVec 16) : (x.setWidth 32 - y.setWidth 32).setWidth 16 = x - y := by
  refine BitVec.eq_of_toNat_eq ?_
  simp only [BitVec.toNat_sub, BitVec.toNat_setWidth]
  omega

theorem eq_of_sub_zero {w : Nat} {x y : BitVec w} (h : x - y = 0#w) : x = y := by
  rw [← BitVec.sub_add_cancel x y, h, BitVec.zero_add]

section Delta
variable {buf : Mem} {cp : Int} {n : BitVec 32}

theorem delta_long (h : bytesAt buf cp 3 = [0, n.extractLsb' 8 8, n.extractLsb' 0 8]) :
    delta buf cp = (n.setWidth 16, cp + 3) := by
  simp only [bytesAt, List.cons.injEq, and_true] at h
  obtain ⟨h0, h1, h2⟩ := h
  rw [delta, if_pos h0, h1, show cp + 2 = cp + 1 + 1 by omega, h2, append_low]

theorem delta_short (h : bytesAt buf cp 1 = [n.extractLsb' 0 8]) (hlt : (n.setWidth 16).toNat < 256)
    (hn : n.setWidth 16 ≠ 0#16) : delta buf cp = (n.setWidth 16, cp + 1) := by
  simp only [bytesAt, List.cons.injEq, and_true] at h
  have hz : n.extractLsb' 0 8 ≠ 0 := fun hz => hn (by rw [← setWidth_low n hlt, hz]; rfl)
  rw [delta, h, if_neg hz, setWidth_low n hlt]

theorem delta_encode (hn : n.setWidth 16 ≠ 0#16) (h : bytesAt buf cp (encode n).length = encode n) :
    delta buf cp = (n.setWidth 16, cp + (encode n).length) := by
  revert h
  unfold encode
  split <;> intro h
  · rw [delta_long h]; rfl
  · rw [delta_short h (by omega) hn]; rfl

theorem delta_encodeZ (h : bytesAt buf cp (encodeZ n).length = encodeZ n) :
    delta buf cp = (n.setWidth 16, cp + (encodeZ n).length) := by
  revert h
  unfold encodeZ
  split <;> intro h
  · rw [delta_long h]; rfl
  · next hn =>
    rw [not_or] at hn
    rw [delta_short h (by omega) hn.2]; rfl

end Delta

/-! ## Fields -/

/-- The header `m` being rebuilt, `n` bytes long, between the cached header `hdr`
and the datagram `ip`. -/
structure Stage (n : Int) (ip hdr : Mem) (E D : List (Int × Int)) (m : Mem) : Prop where
  new : AgreeOff E n m ip
  old : AgreeOff D n m hdr

section Stage
variable {n a : Int} {ip hdr m : Mem} {E D : List (Int × Int)}

theorem Stage.set8 {v : Byte} (h : Stage n ip hdr ((a, 1) :: E) D m) (hv : v = ip a) :
    Stage n ip hdr E ((a, 1) :: D) (set8 m a v) := by
  subst hv
  refine ⟨h.new.settle (fun j h0 h1 => ?_) fun j hj => set8_ne (by omega), h.old.touch fun j hj => set8_ne (by omega)⟩
  rw [show j = a by omega, set8_same]

theorem Stage.set16 {v : BitVec 16} (h : Stage n ip hdr ((a, 2) :: E) D m) (hv : v = get16 ip a) :
    Stage n ip hdr E ((a, 2) :: D) (set16 m a v) := by
  subst hv
  exact ⟨h.new.settle (set16_get16 ip) fun j hj => set16_ne hj, h.old.touch fun j hj => set16_ne hj⟩

theorem Stage.set32 {v : BitVec 32} (h : Stage n ip hdr ((a, 4) :: E) D m) (hv : v = get32 ip a) :
    Stage n ip hdr E ((a, 4) :: D) (set32 m a v) := by
  subst hv
  exact ⟨h.new.settle (set32_get32 ip) fun j hj => set32_ne hj, h.old.touch fun j hj => set32_ne hj⟩

theorem Stage.skip {k : Int} (h : Stage n ip hdr ((a, k) :: E) D m) (hk : ∀ j, a ≤ j → j < a + k → m j = ip j) :
    Stage n ip hdr E ((a, k) :: D) m :=
  ⟨h.new.settle hk fun _ _ => rfl, h.old.touch fun _ _ => rfl⟩

end Stage

section Fields
variable {n a : Int} {ip hdr buf : Mem} {E D : List (Int × Int)} {d : Decoding} {changes bit : Byte}

/-- `a` lies in the header, away from the fields `D`. -/
def Untouched (n a k : Int) (D : List (Int × Int)) : Prop :=
  0 ≤ a ∧ a + k ≤ n ∧ ∀ e ∈ D, a + k ≤ e.1 ∨ e.1 + e.2 ≤ a

/-- A 32-bit field sent as its change. -/
theorem stage_decodeL (h : Stage n ip hdr ((a, 4) :: E) D d.hdr) (hu : Untouched n a 4 D)
    (hbit : changes &&& bit ≠ 0 ↔ get32 ip a - get32 hdr a ≠ 0) (hle : ¬get32 ip a - get32 hdr a > 0xffff)
    (hl : l = if get32 ip a - get32 hdr a ≠ 0 then encode (get32 ip a - get32 hdr a) else [])
    (hbuf : bytesAt buf d.cp l.length = l) :
    Stage n ip hdr E ((a, 4) :: D) (onBit changes bit (decodeL buf a) d).hdr ∧
      (onBit changes bit (decodeL buf a) d).cp = d.cp + l.length := by
  have hold : get32 d.hdr a = get32 hdr a := h.old.get32 hu.1 hu.2.1 hu.2.2
  unfold onBit
  by_cases hz : get32 ip a - get32 hdr a ≠ 0
  · rw [if_pos hz] at hl
    have hwidth := setWidth_setWidth_of_le hle
    have hne : (get32 ip a - get32 hdr a).setWidth 16 ≠ 0#16 := fun h0 => hz (by rw [← hwidth, h0]; rfl)
    have hdelta := delta_encode hne (hl ▸ hbuf)
    rw [if_pos (hbit.2 hz), decodeL, hdelta, hold, hwidth, hl]
    refine ⟨h.set32 ?_, rfl⟩
    rw [BitVec.add_comm, BitVec.sub_add_cancel]
  · rw [if_neg hz] at hl
    rw [if_neg (mt hbit.1 hz), hl]
    refine ⟨h.skip (get32_bytes ?_), by simp⟩
    rw [hold, eq_of_sub_zero (not_not.1 hz)]

/-- A 16-bit field sent as its change. -/
theorem stage_decodeS (h : Stage n ip hdr ((a, 2) :: E) D d.hdr) (hu : Untouched n a 2 D)
    (hbit : changes &&& bit ≠ 0 ↔ get16 ip a - get16 hdr a ≠ 0)
    (hl : l = if get16 ip a - get16 hdr a ≠ 0 then encode ((get16 ip a - get16 hdr a).setWidth 32) else [])
    (hbuf : bytesAt buf d.cp l.length = l) :
    Stage n ip hdr E ((a, 2) :: D) (onBit changes bit (decodeS buf a) d).hdr ∧
      (onBit changes bit (decodeS buf a) d).cp = d.cp + l.length := by
  have hold : get16 d.hdr a = get16 hdr a := h.old.get16 hu.1 hu.2.1 hu.2.2
  have hwidth : ((get16 ip a - get16 hdr a).setWidth 32).setWidth 16 = get16 ip a - get16 hdr a := by simp
  unfold onBit
  by_cases hz : get16 ip a - get16 hdr a ≠ 0
  · rw [if_pos hz] at hl
    have hdelta := delta_encode (by rw [hwidth]; exact hz) (hl ▸ hbuf)
    rw [if_pos (hbit.2 hz), decodeS, hdelta, hold, hwidth, hl]
    refine ⟨h.set16 ?_, rfl⟩
    rw [BitVec.add_comm, BitVec.sub_add_cancel]
  · rw [if_neg hz] at hl
    rw [if_neg (mt hbit.1 hz), hl]
    refine ⟨h.skip (get16_bytes ?_), by simp⟩
    rw [hold, eq_of_sub_zero (not_not.1 hz)]

/-- The IP id, sent as its change unless that is 1. -/
theorem stage_decodeId (h : Stage n ip hdr ((4, 2) :: E) D d.hdr) (hu : Untouched n 4 2 D) {deltaI : BitVec 32}
    (hI : deltaI = (get16 ip 4).setWidth 32 - (get16 hdr 4).setWidth 32) (hbit : changes &&& NEW_I ≠ 0 ↔ deltaI ≠ 1)
    (hl : l = if deltaI ≠ 1 then encodeZ deltaI else []) (hbuf : bytesAt buf d.cp l.length = l) :
    Stage n ip hdr E ((4, 2) :: D) (decodeId buf changes d).hdr ∧ (decodeId buf changes d).cp = d.cp + l.length := by
  have hold : get16 d.hdr 4 = get16 hdr 4 := h.old.get16 hu.1 hu.2.1 hu.2.2
  have hwidth : deltaI.setWidth 16 = get16 ip 4 - get16 hdr 4 := by rw [hI, setWidth_sub]
  unfold decodeId
  by_cases h1 : deltaI ≠ 1
  · rw [if_pos h1] at hl
    have hdelta := delta_encodeZ (hl ▸ hbuf)
    rw [if_pos (hbit.2 h1), decodeS, hdelta, hold, hwidth, hl]
    refine ⟨h.set16 ?_, rfl⟩
    rw [BitVec.add_comm, BitVec.sub_add_cancel]
  · rw [if_neg h1] at hl
    rw [if_neg (mt hbit.1 h1), hl]
    refine ⟨h.set16 ?_, by simp⟩
    rw [not_not.1 h1] at hwidth
    rw [hold, show (1 : BitVec 16) = get16 ip 4 - get16 hdr 4 from hwidth, BitVec.add_comm, BitVec.sub_add_cancel]

theorem stage_advance (h : Stage n ip hdr ((a, 4) :: E) D d.hdr) (hu : Untouched n a 4 D) {i : BitVec 32}
    (hi : get32 ip a - get32 hdr a = i) : Stage n ip hdr E ((a, 4) :: D) (advance a i d).hdr := by
  have hold : get32 d.hdr a = get32 hdr a := h.old.get32 hu.1 hu.2.1 hu.2.2
  refine h.set32 ?_
  rw [hold, ← hi, BitVec.add_comm, BitVec.sub_add_cancel]

theorem stage_unchanged32 (h : Stage n ip hdr ((a, 4) :: E) D d.hdr) (hu : Untouched n a 4 D)
    (hi : get32 ip a = get32 hdr a) : Stage n ip hdr E ((a, 4) :: D) d.hdr :=
  h.skip (get32_bytes ((h.old.get32 hu.1 hu.2.1 hu.2.2).trans hi.symm))

theorem stage_unchanged16 (h : Stage n ip hdr ((a, 2) :: E) D d.hdr) (hu : Untouched n a 2 D)
    (hi : get16 ip a = get16 hdr a) : Stage n ip hdr E ((a, 2) :: D) d.hdr :=
  h.skip (get16_bytes ((h.old.get16 hu.1 hu.2.1 hu.2.2).trans hi.symm))

end Fields

/-! ## Flags -/

/-- The flags of a datagram that is compressed: `TH_ACK`, perhaps `TH_PUSH` and
`TH_URG`, nothing else. -/
def Plain (flags : Byte) : Prop := flags &&& 0xd7 = TH_ACK

instance (flags : Byte) : Decidable (Plain flags) := by unfold Plain; infer_instance

theorem plain_cases : ∀ {flags : Byte}, Plain flags → flags = 0x10 ∨ flags = 0x18 ∨ flags = 0x30 ∨ flags = 0x38 := by
  decide

/-- `TH_PUSH` as in `new`. -/
def pushed (old new : Byte) : Byte := if new &&& TH_PUSH ≠ 0 then old ||| TH_PUSH else old &&& ~~~TH_PUSH

theorem urgent_pushed {old new : Byte} (ho : Plain old) (hn : Plain new) :
    (if new &&& TH_URG ≠ 0 then pushed old new ||| TH_URG else pushed old new &&& ~~~TH_URG) = new := by
  rcases plain_cases ho with rfl | rfl | rfl | rfl <;> rcases plain_cases hn with rfl | rfl | rfl | rfl <;> decide

theorem pushed_eq {old new : Byte} (ho : Plain old) (hn : Plain new) (hou : old &&& TH_URG = 0)
    (hnu : new &&& TH_URG = 0) : pushed old new = new := by
  rcases plain_cases ho with rfl | rfl | rfl | rfl <;> rcases plain_cases hn with rfl | rfl | rfl | rfl <;>
    first | decide | exact absurd hou (by decide) | exact absurd hnu (by decide)

section Flags
variable {n T : Int} {ip hdr buf : Mem} {E D : List (Int × Int)} {d : Decoding} {changes : Byte}

/-- The urgent flag and pointer. -/
theorem stage_decodeUrg (h : Stage n ip hdr ((T + 13, 1) :: (T + 18, 2) :: E) D d.hdr)
    (hu : Untouched n (T + 18) 2 ((T + 13, 1) :: D)) (hold : Plain (hdr (T + 13))) (hnew : Plain (ip (T + 13)))
    (hf : d.hdr (T + 13) = pushed (hdr (T + 13)) (ip (T + 13)))
    (hbit : changes &&& NEW_U ≠ 0 ↔ ip (T + 13) &&& TH_URG ≠ 0)
    (hsame : ¬ip (T + 13) &&& TH_URG ≠ 0 → get16 ip (T + 18) = get16 hdr (T + 18))
    (hl : l = if ip (T + 13) &&& TH_URG ≠ 0 then encodeZ ((get16 ip (T + 18)).setWidth 32) else [])
    (hbuf : bytesAt buf d.cp l.length = l) :
    Stage n ip hdr E ((T + 18, 2) :: (T + 13, 1) :: D) (decodeUrg buf T changes d).hdr ∧
      (decodeUrg buf T changes d).cp = d.cp + l.length := by
  have hflags := urgent_pushed hold hnew
  rw [← hf] at hflags
  unfold decodeUrg
  by_cases hurg : ip (T + 13) &&& TH_URG ≠ 0
  · rw [if_pos hurg] at hl hflags
    have hdelta := delta_encodeZ (hl ▸ hbuf)
    simp only
    rw [if_pos (hbit.2 hurg), decodeU]
    simp only
    rw [hdelta, hl]
    exact ⟨(h.set8 hflags).set16 (by simp), rfl⟩
  · rw [if_neg hurg] at hl hflags
    simp only
    rw [if_neg (mt hbit.1 hurg), hl]
    have hset := h.set8 hflags
    refine ⟨hset.skip (get16_bytes ?_), by simp⟩
    rw [hset.old.get16 hu.1 hu.2.1 hu.2.2, hsame hurg]

theorem stage_decodePush (h : Stage n ip hdr ((T + 13, 1) :: E) D d.hdr) (hf : d.hdr (T + 13) = hdr (T + 13))
    (hbit : changes &&& TCP_PUSH_BIT ≠ 0 ↔ ip (T + 13) &&& TH_PUSH ≠ 0) :
    Stage n ip hdr ((T + 13, 1) :: E) ((T + 13, 1) :: D) (decodePush T changes d).hdr ∧
      (decodePush T changes d).hdr (T + 13) = pushed (hdr (T + 13)) (ip (T + 13)) := by
  have hout : ∀ j, j < T + 13 ∨ T + 13 + 1 ≤ j → (decodePush T changes d).hdr j = d.hdr j := fun j hj =>
    set8_ne (by omega)
  refine ⟨⟨(h.new.touch hout).mono (by simp), h.old.touch hout⟩, ?_⟩
  simp only [decodePush, set8_same, hf, pushed, hbit]

end Flags

/-! ## The change mask -/

/-- The bits for the TCP fields. -/
def tcpMask (u w a s : Bool) : Byte :=
  (if u then NEW_U else 0) ||| (if w then NEW_W else 0) ||| (if a then NEW_A else 0) ||| (if s then NEW_S else 0)

/-- With the IP id, the push flag and the connection id. -/
def fullMask (tcp : Byte) (i p c : Bool) : Byte :=
  let x := if i then tcp ||| NEW_I else tcp
  let x := if p then x ||| TCP_PUSH_BIT else x
  if c then x ||| NEW_C else x

/-- What the receiver finds in the mask. -/
structure MaskBits (changes : Byte) (u w a s i p c : Bool) : Prop where
  special : changes &&& SPECIALS_MASK = tcpMask u w a s
  urg : changes &&& NEW_U ≠ 0 ↔ u = true
  win : changes &&& NEW_W ≠ 0 ↔ w = true
  ack : changes &&& NEW_A ≠ 0 ↔ a = true
  seq : changes &&& NEW_S ≠ 0 ↔ s = true
  id : changes &&& NEW_I ≠ 0 ↔ i = true
  push : changes &&& TCP_PUSH_BIT ≠ 0 ↔ p = true
  conn : changes &&& NEW_C ≠ 0 ↔ c = true

theorem maskBits_fullMask (u w a s i p c : Bool) : MaskBits (fullMask (tcpMask u w a s) i p c) u w a s i p c := by
  constructor <;> revert u w a s i p c <;> decide

/-- What the sender can decide on: the fields that changed, or one of the special
encodings. -/
inductive Changes (ip cs : Mem) (hlen : Nat) : Byte → List Byte → Prop where
  | fields (hurp : (deltas ip cs).urg = false → get16 ip (4 * ipHl ip + 18) = get16 cs (4 * ipHl ip + 18))
      (hleA : ¬(deltas ip cs).deltaA > 0xffff) (hleS : ¬(deltas ip cs).deltaS > 0xffff)
      (hI : (deltas ip cs).changes ≠ SPECIAL_I) (hD : (deltas ip cs).changes ≠ SPECIAL_D) :
      Changes ip cs hlen (deltas ip cs).changes (deltas ip cs).newSeq
  | special (a : Bool) (hurg : (deltas ip cs).urg = false)
      (hurp : get16 ip (4 * ipHl ip + 18) = get16 cs (4 * ipHl ip + 18)) (hwin : (deltas ip cs).deltaW = 0)
      (hack : (deltas ip cs).deltaA = if a then 0 else lastData cs hlen)
      (hseq : (deltas ip cs).deltaS = lastData cs hlen) (hne : (deltas ip cs).deltaS ≠ 0) :
      Changes ip cs hlen (tcpMask true true a true) []

theorem changes_eq (d : Deltas) :
    d.changes = tcpMask d.urg (decide (d.deltaW ≠ 0)) (decide (d.deltaA ≠ 0)) (decide (d.deltaS ≠ 0)) := by
  simp only [Deltas.changes, tcpMask, decide_eq_true_eq]

theorem tcpMask_seq_ack : ∀ {u w a s : Bool}, tcpMask u w a s = NEW_S ||| NEW_A →
    u = false ∧ w = false ∧ s = true := by
  decide

theorem tcpMask_seq : ∀ {u w a s : Bool}, tcpMask u w a s = NEW_S →
    u = false ∧ w = false ∧ a = false ∧ s = true := by
  decide

theorem changedFields_spec {ip cs : Mem} {hlen : Nat} {changes : Byte}
    (h : changedFields ip cs hlen = some (changes, newSeq)) : Changes ip cs hlen changes newSeq := by
  unfold changedFields at h
  simp only at h
  split_ifs at h with hurp hleA hleS hzero hlen hspecial hsa hsent hs hsent
  all_goals
    simp only [Option.some.injEq, Prod.mk.injEq] at h
    obtain ⟨rfl, rfl⟩ := h
  all_goals have hurp' : (deltas ip cs).urg = false → get16 ip (4 * ipHl ip + 18) = get16 cs (4 * ipHl ip + 18) :=
    fun hu => by_contra fun hne => hurp ⟨hu, hne⟩
  all_goals try rw [not_or] at hspecial
  · exact .fields hurp' hleA hleS (by rw [hzero]; decide) (by rw [hzero]; decide)
  · rw [changes_eq] at hsa
    obtain ⟨hu, hw, hs⟩ := tcpMask_seq_ack hsa
    rw [decide_eq_false_iff_not, not_not] at hw
    exact .special false hu (hurp' hu) hw (hsent.1 ▸ hsent.2) hsent.2 (of_decide_eq_true hs)
  · exact .fields hurp' hleA hleS hspecial.1 hspecial.2
  · rw [changes_eq] at hs
    obtain ⟨hu, hw, ha, hs⟩ := tcpMask_seq hs
    rw [decide_eq_false_iff_not, not_not] at hw ha
    exact .special true hu (hurp' hu) hw ha hsent (of_decide_eq_true hs)
  · exact .fields hurp' hleA hleS hspecial.1 hspecial.2
  · exact .fields hurp' hleA hleS hspecial.1 hspecial.2

/-! ## Decoding -/

section Decode
variable {n T : Int} {ip hdr buf : Mem} {d : Decoding} {hlen : Nat}

/-- The fields the switch on the change mask leaves. -/
def rest : List (Int × Int) := [(4, 2), (2, 2), (10, 2)]

/-- The fields decoded before and in the switch. -/
def done (T : Int) : List (Int × Int) :=
  [(T + 4, 4), (T + 8, 4), (T + 14, 2), (T + 18, 2), (T + 13, 1), (T + 13, 1), (T + 16, 2)]

theorem decodeSeq_stage {tcp : Byte} {i p c : Bool} (hT : T = 4 * ipHl ip) (hT0 : 20 ≤ T) (hTn : T + 20 ≤ n)
    (h : Stage n ip hdr ((T + 13, 1) :: (T + 18, 2) :: (T + 14, 2) :: (T + 8, 4) :: (T + 4, 4) :: rest)
      [(T + 13, 1), (T + 16, 2)] d.hdr) (hold : Plain (hdr (T + 13))) (hnew : Plain (ip (T + 13)))
    (hf : d.hdr (T + 13) = pushed (hdr (T + 13)) (ip (T + 13))) (hc : Changes ip hdr hlen tcp newSeq)
    (hspecial : tcp = SPECIAL_I ∨ tcp = SPECIAL_D → hdr (T + 13) &&& TH_URG = 0)
    (hbuf : bytesAt buf d.cp newSeq.length = newSeq) :
    Stage n ip hdr rest (done T) (decodeSeq buf T hlen (fullMask tcp i p c) d).hdr ∧
      (decodeSeq buf T hlen (fullMask tcp i p c) d).cp = d.cp + newSeq.length := by
  cases hc with
  | fields hurp hleA hleS hI hD =>
    simp only [deltas, ← hT, decide_eq_false_iff_not] at hurp hleA hleS
    rw [changes_eq] at hI hD ⊢
    have hm := maskBits_fullMask (deltas ip hdr).urg (decide ((deltas ip hdr).deltaW ≠ 0))
      (decide ((deltas ip hdr).deltaA ≠ 0)) (decide ((deltas ip hdr).deltaS ≠ 0)) i p c
    generalize fullMask _ i p c = changes at hm ⊢
    simp only [deltas, ← hT] at hm hI hD
    simp only [Deltas.newSeq, deltas, ← hT, decide_eq_true_eq] at hbuf ⊢
    obtain ⟨hbuf, hbufS⟩ := bytesAt_append hbuf
    obtain ⟨hbuf, hbufA⟩ := bytesAt_append hbuf
    obtain ⟨hbufU, hbufW⟩ := bytesAt_append hbuf
    have hmU : changes &&& NEW_U ≠ 0 ↔ ip (T + 13) &&& TH_URG ≠ 0 := hm.urg.trans decide_eq_true_iff
    have hmW : changes &&& NEW_W ≠ 0 ↔ get16 ip (T + 14) - get16 hdr (T + 14) ≠ 0 := hm.win.trans decide_eq_true_iff
    have hmA : changes &&& NEW_A ≠ 0 ↔ get32 ip (T + 8) - get32 hdr (T + 8) ≠ 0 := hm.ack.trans decide_eq_true_iff
    have hmS : changes &&& NEW_S ≠ 0 ↔ get32 ip (T + 4) - get32 hdr (T + 4) ≠ 0 := hm.seq.trans decide_eq_true_iff
    rw [decodeSeq, if_neg (by rw [hm.special]; exact hI), if_neg (by rw [hm.special]; exact hD)]
    obtain ⟨h1, hcp1⟩ := stage_decodeUrg h (by simp [Untouched]; omega) hold hnew hf hmU hurp rfl hbufU
    obtain ⟨h2, hcp2⟩ := stage_decodeS h1 (by simp [Untouched]; omega) hmW rfl (by rw [hcp1]; exact hbufW)
    obtain ⟨h3, hcp3⟩ := stage_decodeL h2 (by simp [Untouched]; omega) hmA hleA rfl (by
      rw [hcp2, hcp1, Int.add_assoc, ← Int.natCast_add, ← List.length_append]; exact hbufA)
    obtain ⟨h4, hcp4⟩ := stage_decodeL h3 (by simp [Untouched]; omega) hmS hleS rfl (by
      rw [hcp3, hcp2, hcp1, Int.add_assoc, Int.add_assoc, ← Int.natCast_add, ← Int.natCast_add, ← List.length_append,
        ← List.length_append, ← List.append_assoc]
      exact hbufS)
    refine ⟨h4, ?_⟩
    simp only
    rw [hcp4, hcp3, hcp2, hcp1]
    simp only [List.length_append, Int.natCast_add]
    omega
  | special a hurg hurp hwin hack hseq hne =>
    have hm := maskBits_fullMask true true a true i p c
    generalize fullMask _ i p c = changes at hm ⊢
    have hspec : tcpMask true true a true = if a then SPECIAL_D else SPECIAL_I := by cases a <;> decide
    simp only [deltas, ← hT, decide_eq_false_iff_not, not_not] at hurg hurp hwin hack hseq
    have hflags := pushed_eq hold hnew (hspecial (by rw [hspec]; cases a <;> simp)) hurg
    have hlast : lastData d.hdr hlen = lastData hdr hlen := by
      rw [lastData, lastData, h.old.get16 (by omega) (by omega) (by simp; omega)]
    have h1 := h.skip (a := T + 13) (k := 1) fun j hj hj' => by
      rw [show j = T + 13 by omega, hf, hflags]
    have h2 := stage_unchanged16 h1 (by simp [Untouched]; omega) hurp
    have h3 := stage_unchanged16 h2 (by simp [Untouched]; omega) (eq_of_sub_zero hwin)
    rw [decodeSeq, hm.special, hspec, hlast]
    cases a with
    | false =>
      have h4 := stage_advance h3 (by simp [Untouched]; omega) hack
      have h5 := stage_advance h4 (by simp [Untouched]; omega) hseq
      rw [if_pos (by simp)]
      exact ⟨h5, by simp [advance]⟩
    | true =>
      have h4 := stage_unchanged32 h3 (by simp [Untouched]; omega) (eq_of_sub_zero hack)
      have h5 := stage_advance h4 (by simp [Untouched]; omega) hseq
      rw [if_neg (by decide), if_pos (by simp)]
      exact ⟨h5, by simp [advance]⟩

/-- The bytes of a compressed packet behind the change mask and the connection
id: the TCP checksum, the TCP fields and the IP id. -/
def encoded (ip cs : Mem) (newSeq : List Byte) : List Byte :=
  let deltaI : BitVec 32 := (get16 ip 4).setWidth 32 - (get16 cs 4).setWidth 32
  [ip (4 * ipHl ip + 16), ip (4 * ipHl ip + 17)] ++ newSeq ++ (if deltaI ≠ 1 then encodeZ deltaI else [])

/-- The mask that goes with them. -/
def encodedMask (ip cs : Mem) (tcp : Byte) (c : Bool) : Byte :=
  fullMask tcp (decide ((get16 ip 4).setWidth 32 - (get16 cs 4).setWidth 32 ≠ (1 : BitVec 32)))
    (decide (ip (4 * ipHl ip + 13) &&& TH_PUSH ≠ 0)) c

/-- The fields a datagram of the same connection may differ in. -/
def varying (T : Int) : List (Int × Int) :=
  (T + 16, 2) :: (T + 13, 1) :: (T + 18, 2) :: (T + 14, 2) :: (T + 8, 4) :: (T + 4, 4) :: rest

/-- The receiver's header after decoding: the datagram's but for the length and
the IP checksum, and the latter still that of the cached header. -/
theorem decode_header {tcp : Byte} {c : Bool} {cp : Int} (hT : T = 4 * ipHl ip) (hT0 : 20 ≤ T) (hTn : T + 20 ≤ n)
    (hhl : ipHl hdr = ipHl ip) (h : AgreeOff (varying T) n hdr ip) (hold : Plain (hdr (T + 13)))
    (hnew : Plain (ip (T + 13))) (hc : Changes ip hdr hlen tcp newSeq)
    (hspecial : tcp = SPECIAL_I ∨ tcp = SPECIAL_D → hdr (T + 13) &&& TH_URG = 0)
    (hbuf : bytesAt buf cp (encoded ip hdr newSeq).length = encoded ip hdr newSeq) :
    let d := decode buf hlen (encodedMask ip hdr tcp c) ⟨hdr, cp⟩
    AgreeOff [(2, 2), (10, 2)] n d.hdr ip ∧ AgreeOff ((4, 2) :: done T) n d.hdr hdr ∧
      d.cp = cp + (encoded ip hdr newSeq).length := by
  intro d
  obtain ⟨u, w, a, s, rfl⟩ : ∃ u w a s, tcp = tcpMask u w a s := by
    cases hc with
    | fields => exact ⟨_, _, _, _, changes_eq _⟩
    | special a => exact ⟨_, _, _, _, rfl⟩
  have hm := maskBits_fullMask u w a s (decide ((get16 ip 4).setWidth 32 - (get16 hdr 4).setWidth 32 ≠ (1 : BitVec 32)))
    (decide (ip (4 * ipHl ip + 13) &&& TH_PUSH ≠ 0)) c
  obtain ⟨hbuf, hbufI⟩ := bytesAt_append hbuf
  obtain ⟨hbufSum, hbufSeq⟩ := bytesAt_append hbuf
  have hsum : get16 buf cp = get16 ip (T + 16) := by
    simp only [List.length_cons, List.length_nil, bytesAt, List.cons.injEq, and_true, ← hT] at hbufSum
    rw [get16, get16, hbufSum.1, hbufSum.2, show T + 16 + 1 = T + 17 by omega]
  have hmP : encodedMask ip hdr (tcpMask u w a s) c &&& TCP_PUSH_BIT ≠ 0 ↔ ip (T + 13) &&& TH_PUSH ≠ 0 := by
    rw [hT]
    exact hm.push.trans decide_eq_true_iff
  have h0 : Stage n ip hdr (varying T) [] hdr := ⟨h, fun _ _ _ _ => rfl⟩
  have h1 : Stage n ip hdr _ _ (decodeSum buf T ⟨hdr, cp⟩).hdr := h0.set16 hsum
  obtain ⟨h2, hf2⟩ := stage_decodePush h1 (set16_ne (by omega)) hmP
  obtain ⟨h3, hcp3⟩ := decodeSeq_stage hT hT0 hTn h2 hold hnew hf2 hc hspecial hbufSeq
  obtain ⟨h4, hcp4⟩ := stage_decodeId h3 (by simp [Untouched, done]; omega) rfl (hm.id.trans decide_eq_true_iff) rfl
    (by
      rw [hcp3, decodePush, decodeSum, Int.add_assoc]
      rw [List.length_append, List.length_cons, List.length_cons, List.length_nil, Int.natCast_add] at hbufI
      exact hbufI)
  have hd : d = decodeId buf (encodedMask ip hdr (tcpMask u w a s) c) (decodeSeq buf T hlen
      (encodedMask ip hdr (tcpMask u w a s) c)
      (decodePush T (encodedMask ip hdr (tcpMask u w a s) c) (decodeSum buf T ⟨hdr, cp⟩))) := by
    simp only [d, decode, hhl, ← hT]
  rw [hd]
  refine ⟨h4.new, h4.old, ?_⟩
  simp only [encodedMask] at hcp3 hcp4 ⊢
  rw [hcp4, hcp3, encoded, decodePush, decodeSum]
  simp only [List.length_append, List.length_cons, List.length_nil, Int.natCast_add]
  omega

end Decode

end BsdKernel.Slcompress
