import BsdKernel.Net.Radix
/-!
# Keys and masks of routes

The byte loops of `net/radix.c` in terms of bits: the first byte at which two keys
differ gives the first bit (`diffByte_lead`), and a contiguous mask of a given
length has one copy, `maskKey`, which is what `rn_addmask` returns for it
(`rnAddmask_spec`).
-/

namespace BsdKernel.Radix
open Lib PTree

variable {j q i n b m0 p : Nat} {v k : Key}

/-! ## Bits of a byte -/

/-- Bit `j` of a byte, the highest first. -/
def byteBit (x : Byte) (j : Nat) : Bool := (0x80#8 >>> j) &&& x != 0#8

theorem bitSet_eq (v : Key) (b : Nat) : bitSet v b = byteBit (byteAt v (b / 8)) (b % 8) := rfl

theorem byteBit_lsb (x : Byte) (h : j < 8) : byteBit x j = x.getLsbD (7 - j) := by
  have all : ∀ x : Byte, ∀ j < 8, byteBit x j = x.getLsbD (7 - j) := by decide +kernel
  exact all x j h

theorem byteBit_and (x y : Byte) (h : j < 8) : byteBit (x &&& y) j = (byteBit x j && byteBit y j) := by
  simp [byteBit_lsb _ h]

theorem byteBit_xor (x y : Byte) (h : j < 8) : byteBit (x ^^^ y) j = (byteBit x j != byteBit y j) := by
  simp [byteBit_lsb _ h]

theorem byte_ext {x y : Byte} (h : ∀ j < 8, byteBit x j = byteBit y j) : x = y := by
  apply BitVec.eq_of_getLsbD_eq
  intro i hi
  have hb := h (7 - i) (by omega)
  rw [byteBit_lsb _ (by omega), byteBit_lsb _ (by omega)] at hb
  rwa [show 7 - (7 - i) = i by omega] at hb

theorem byteBit_zero (j : Nat) : byteBit 0#8 j = false := by simp [byteBit]

theorem byteBit_ones (h : j < 8) : byteBit 0xff#8 j = true := by
  have all : ∀ j < 8, byteBit 0xff#8 j = true := by decide
  exact all j h

theorem byteBit_normalChars (hq : q ≤ 8) (h : j < 8) : byteBit (normalChars.getD q 0) j = decide (j < q) := by
  have all : ∀ q < 9, ∀ j < 8, byteBit (normalChars.getD q 0) j = decide (j < q) := by decide
  exact all q (by omega) j h

/-! ## Where two keys differ -/

theorem diffByte_none : diffByte v k i n = none ↔ ∀ j, i ≤ j → j < i + n → byteAt v j = byteAt k j := by
  induction n generalizing i with
  | zero => simp only [diffByte, true_iff]; intro j h1 h2; omega
  | succ n ih =>
    rw [diffByte]
    by_cases h : byteAt v i = byteAt k i
    · rw [if_neg (by simpa using h), ih]
      constructor
      · intro hj j h1 h2
        obtain rfl | hlt : j = i ∨ i + 1 ≤ j := by omega
        · exact h
        · exact hj j hlt (by omega)
      · exact fun hj j h1 h2 => hj j (by omega) (by omega)
    · rw [if_pos h]
      simp only [reduceCtorEq, false_iff]
      exact fun hj => h (hj i (Nat.le_refl i) (by omega))

theorem diffByte_some {m : Nat} (h : diffByte v k i n = some m) :
    i ≤ m ∧ m < i + n ∧ (∀ j, i ≤ j → j < m → byteAt v j = byteAt k j) ∧ byteAt v m ≠ byteAt k m := by
  induction n generalizing i with
  | zero => simp [diffByte] at h
  | succ n ih =>
    rw [diffByte] at h
    by_cases he : byteAt v i = byteAt k i
    · rw [if_neg (by simpa using he)] at h
      obtain ⟨h1, h2, h3, h4⟩ := ih h
      refine ⟨by omega, by omega, ?_, h4⟩
      intro j hj1 hj2
      obtain rfl | hlt : j = i ∨ i + 1 ≤ j := by omega
      · exact he
      · exact h3 j hlt hj2
    · rw [if_pos he, Option.some.injEq] at h
      subst h
      refine ⟨Nat.le_refl i, by omega, ?_, he⟩
      intro j hj1 hj2
      omega

theorem countDown_leadBit {c : Byte} (h : c ≠ 0#8) (i : Nat) : countDown 8 ((i + 1) * 8) c = leadBit 7 c + i * 8 := by
  have all : ∀ c : Byte, c ≠ 0#8 → countDown 8 8 c = leadBit 7 c := by decide +kernel
  have shift : ∀ n b m c, n ≤ b → countDown n (b + m) c = countDown n b c + m := by
    intro n
    induction n with
    | zero => intros; rfl
    | succ n ih =>
      intro b m c hb
      rw [countDown, countDown]
      split
      · rfl
      · rw [show b + m - 1 = b - 1 + m by omega, ih _ _ _ (by omega)]
  rw [show (i + 1) * 8 = 8 + i * 8 by omega, shift 8 8 _ c (Nat.le_refl 8), all c h]

theorem leadBit_spec {c : Byte} (h : c ≠ 0#8) :
    leadBit 7 c < 8 ∧ byteBit c (leadBit 7 c) = true ∧ ∀ j < leadBit 7 c, byteBit c j = false := by
  have all : ∀ c : Byte, c ≠ 0#8 →
      leadBit 7 c < 8 ∧ byteBit c (leadBit 7 c) = true ∧ ∀ j < 8, j < leadBit 7 c → byteBit c j = false := by
    decide +kernel
  obtain ⟨h1, h2, h3⟩ := all c h
  exact ⟨h1, h2, fun j hj => h3 j (by omega) hj⟩

theorem agree_of_bytes (h : ∀ j, i ≤ j → j < n → byteAt v j = byteAt k j) :
    Agree (8 * i) (bitSet v) (bitSet k) (8 * n) := by
  intro b h0 hb
  rw [bitSet_eq, bitSet_eq, h (b / 8) (by omega) (by omega)]

theorem bytes_of_agree (h : Agree (8 * i) (bitSet v) (bitSet k) (8 * n)) :
    ∀ j, i ≤ j → j < n → byteAt v j = byteAt k j := by
  intro j h0 hn
  apply byte_ext
  intro l hl
  have hb := h (8 * j + l) (by omega) (by omega)
  rwa [bitSet_eq, bitSet_eq, show (8 * j + l) / 8 = j by omega, show (8 * j + l) % 8 = l by omega] at hb

/-- The first bit at which keys differ, from the first byte. -/
theorem diffByte_lead {m : Nat} (h : diffByte v k i n = some m) :
    Agree (8 * i) (bitSet v) (bitSet k) (leadBit 7 (byteAt v m ^^^ byteAt k m) + m * 8) ∧
      bitSet v (leadBit 7 (byteAt v m ^^^ byteAt k m) + m * 8) ≠ bitSet k (leadBit 7 (byteAt v m ^^^ byteAt k m) + m * 8) ∧
      8 * i ≤ leadBit 7 (byteAt v m ^^^ byteAt k m) + m * 8 ∧
      leadBit 7 (byteAt v m ^^^ byteAt k m) + m * 8 < 8 * (i + n) := by
  obtain ⟨him, hmn, hbefore, hat⟩ := diffByte_some h
  obtain ⟨hlt, hset, hclear⟩ := leadBit_spec (c := byteAt v m ^^^ byteAt k m) (by simpa using hat)
  generalize leadBit 7 (byteAt v m ^^^ byteAt k m) = l at hlt hset hclear ⊢
  have split : ∀ j < 8, (j + m * 8) / 8 = m ∧ (j + m * 8) % 8 = j := by intro j hj; omega
  refine ⟨?_, ?_, by omega, by omega⟩
  · intro b h0 hb
    by_cases hbm : b / 8 < m
    · rw [bitSet_eq, bitSet_eq, hbefore _ (by omega) hbm]
    · have hx := hclear (b % 8) (by omega)
      rw [byteBit_xor _ _ (by omega)] at hx
      rw [bitSet_eq, bitSet_eq, show b / 8 = m by omega]
      simpa using hx
  · rw [bitSet_eq, bitSet_eq, (split l hlt).1, (split l hlt).2]
    rw [byteBit_xor _ _ hlt] at hset
    simpa using hset

/-! ## Contiguous masks -/

/-- The first bit of a key that counts. -/
def Shape.n0 (sh : Shape) : Nat := 8 * sh.off

/-- The end of a key in bits. -/
def Shape.nbits (sh : Shape) : Nat := 8 * sh.vlen

theorem Shape.n0_lt (sh : Shape) : sh.n0 < sh.nbits := by
  have := sh.off_lt
  unfold Shape.n0 Shape.nbits
  omega

/-- A mask as its callers write it: bytes with the length in front, ones up to bit `plen`. -/
structure NetMask (sh : Shape) where
  bytes : Key
  plen : Nat
  n0_le : sh.n0 ≤ plen
  plen_le : plen ≤ sh.nbits
  contiguous : ∀ b, sh.n0 ≤ b → (decide (b / 8 < (byteAt bytes 0).toNat) && bitSet bytes b) = decide (b < plen)

/-- Byte `i` of a mask; beyond its length a mask is zero, and no mask is all ones. -/
def maskByte {sh : Shape} : Option (NetMask sh) → Nat → Byte
  | none, _ => 0xff#8
  | some m, i => if i < (byteAt m.bytes 0).toNat then byteAt m.bytes i else 0#8

/-- The copy that the tree of masks keeps of the mask of length `p`. -/
def maskKey (sh : Shape) (p : Nat) : Key :=
  (List.range sh.maxKeylen).map fun i =>
    if i = 0 then BitVec.ofNat 8 ((p + 7) / 8) else normalChars.getD (min 8 (p - 8 * i)) 0

theorem byteAt_map (f : Nat → Byte) (i : Nat) : byteAt ((List.range n).map f) i = if i < n then f i else 0#8 := by
  unfold byteAt
  by_cases h : i < n
  · simp [h]
  · simp [h]

theorem byteAt_rnZeros (sh : Shape) (i : Nat) : byteAt (rnZeros sh) i = 0#8 := by
  unfold byteAt rnZeros
  by_cases h : i < sh.maxKeylen
  · simp [List.getD_eq_getElem?_getD, h]
  · simp [List.getD_eq_getElem?_getD, h]

theorem byteAt_rnOnes {sh : Shape} (h : i < sh.maxKeylen) : byteAt (rnOnes sh) i = 0xff#8 := by
  unfold byteAt rnOnes
  simp [List.getD_eq_getElem?_getD, h]

theorem bitSet_rnZeros (sh : Shape) (b : Nat) : bitSet (rnZeros sh) b = false := by
  rw [bitSet_eq, byteAt_rnZeros, byteBit_zero]

theorem bitSet_rnOnes {sh : Shape} (h : b < sh.nbits) : bitSet (rnOnes sh) b = true := by
  have := sh.vlen_le
  unfold Shape.nbits at h
  rw [bitSet_eq, byteAt_rnOnes (by omega), byteBit_ones (by omega)]

section MaskKey
variable {sh : Shape} {p : Nat}

theorem byteAt_maskKey_len (hp : p ≤ sh.nbits) : (byteAt (maskKey sh p) 0).toNat = (p + 7) / 8 := by
  have h1 := sh.vlen_le
  have h2 := sh.maxKeylen_lt
  have h3 := sh.off_lt
  unfold Shape.nbits at hp
  rw [maskKey, byteAt_map, if_pos (by omega), if_pos rfl, BitVec.toNat_ofNat]
  omega

theorem byteAt_maskKey (hp : p ≤ sh.nbits) (hi : 1 ≤ i) :
    byteAt (maskKey sh p) i = normalChars.getD (min 8 (p - 8 * i)) 0 := by
  have h1 := sh.vlen_le
  unfold Shape.nbits at hp
  rw [maskKey, byteAt_map]
  by_cases h : i < sh.maxKeylen
  · rw [if_pos h, if_neg (by omega)]
  · rw [if_neg h, show min 8 (p - 8 * i) = 0 by omega]
    rfl

theorem bitSet_maskKey (hp : p ≤ sh.nbits) (hb : 8 ≤ b) : bitSet (maskKey sh p) b = decide (b < p) := by
  rw [bitSet_eq, byteAt_maskKey hp (by omega), byteBit_normalChars (by omega) (by omega)]
  congr 1
  apply propext
  omega

theorem maskKey_inj (hp : p ≤ sh.nbits) (hq : q ≤ sh.nbits) (hp0 : sh.n0 < p) (hq0 : sh.n0 < q)
    (h : ∀ i, i < (p + 7) / 8 → byteAt (maskKey sh p) i = byteAt (maskKey sh q) i) : p = q := by
  have hoff := sh.off_pos
  unfold Shape.n0 at hp0 hq0
  have hlen := congrArg BitVec.toNat (h 0 (by omega))
  rw [byteAt_maskKey_len hp, byteAt_maskKey_len hq] at hlen
  -- with one length, the last byte of the masks tells them apart
  have hbit : ∀ b, 8 ≤ b → b < 8 * ((p + 7) / 8) → (b < p ↔ b < q) := by
    intro b h8 hb
    have hb' := congrArg (byteBit · (b % 8)) (h (b / 8) (by omega))
    simp only [← bitSet_eq] at hb'
    rw [bitSet_maskKey hp h8, bitSet_maskKey hq h8] at hb'
    simpa using hb'
  rcases Nat.lt_trichotomy p q with hlt | heq | hgt
  · have := hbit p (by omega) (by omega)
    omega
  · exact heq
  · have := hbit q (by omega) (by omega)
    omega

/-- A mask is not refined by a shorter one. -/
theorem rnRefines_shorter {m : Key} (hq : q ≤ sh.nbits) (hpq : p < q) (hm : (byteAt m 0).toNat = (p + 7) / 8)
    (hbits : ∀ b, 8 ≤ b → p ≤ b → bitSet m b = false) (hq8 : 8 < q) : rnRefines m (maskKey sh q) = false := by
  unfold rnRefines
  simp only [hm, byteAt_maskKey_len hq]
  have hlast : bitSet (maskKey sh q) (q - 1) = true := by
    rw [bitSet_maskKey hq (by omega)]
    simp only [decide_eq_true_eq]
    omega
  -- the last bit of the longer mask is in a common byte, or in one only the longer mask has
  by_cases hc : (q - 1) / 8 < (p + 7) / 8
  · rw [if_pos]
    rw [List.any_eq_true]
    refine ⟨(q - 1) / 8, by rw [List.mem_range'_1]; omega, ?_⟩
    have hclear := hbits (q - 1) (by omega) (by omega)
    rw [bitSet_eq] at hlast hclear
    rw [bne_iff_ne]
    intro hz
    have hb := congrArg (byteBit · ((q - 1) % 8)) hz
    simp only [byteBit_zero] at hb
    rw [byteBit_and _ _ (by omega), hlast, byteBit_lsb _ (by omega), BitVec.getLsbD_not,
      ← byteBit_lsb _ (by omega), hclear] at hb
    simp only [Bool.not_false, Bool.and_true, Bool.true_and, decide_eq_false_iff_not, Nat.not_lt] at hb
    omega
  · rw [ite_eq_left_iff]
    intro _
    rw [if_pos]
    rw [List.any_eq_true]
    refine ⟨(q - 1) / 8, by rw [List.mem_range'_1]; omega, ?_⟩
    rw [bne_iff_ne]
    intro hz
    rw [bitSet_eq, hz, byteBit_zero] at hlast
    cases hlast

theorem normalChars_mono : ∀ a < 9, ∀ b < 9, a ≤ b → ¬(normalChars.getD b 0 < normalChars.getD a 0) := by decide

theorem rnLexobetter_shorter (hp : p ≤ sh.nbits) (hq : q ≤ sh.nbits) (hpq : p < q) :
    rnLexobetter (maskKey sh p) (maskKey sh q) = false := by
  have hlp := byteAt_maskKey_len hp
  have hlq := byteAt_maskKey_len hq
  unfold rnLexobetter
  rw [if_neg]
  · split
    · next heq =>
      rw [List.any_eq_false]
      intro i hi
      rw [decide_eq_true_eq]
      by_cases h0 : i = 0
      · subst h0
        rw [heq]
        exact BitVec.lt_irrefl _
      · rw [byteAt_maskKey hp (by omega), byteAt_maskKey hq (by omega)]
        exact normalChars_mono _ (by omega) _ (by omega) (by omega)
    · rfl
  · rw [BitVec.lt_def, hlp, hlq]
    omega

end MaskKey

/-! ## `rn_addmask` -/

/-- `x` is what `rn_addmask` gives for masks of length `p`; a mask without ones is the root leaf of zeros. -/
structure Stands (sh : Shape) (p : Nat) (x : Route) : Prop where
  key : x.key = if p = sh.n0 then rnZeros sh else maskKey sh p
  b : x.b = if p = sh.n0 then -1 else -1 - (p : Int)
  normal : x.normal = decide (p ≠ sh.n0)

/-- The top of a tree is a node that tests bit `b`. -/
def TopBit (b : Nat) (t : Tree) : Prop := ∃ d l r, t = .node d b l r

theorem TopBit.headOff {t : Tree} (h : TopBit b t) : headOff t = b / 8 := by
  obtain ⟨d, l, r, rfl⟩ := h
  rfl

/-- The masks known so far are copies of contiguous ones, and the buffer is zero beyond `last_zeroed`. -/
structure MasksOk (sh : Shape) (mh : MaskHead) : Prop where
  leaves : ∀ x ∈ mh.top.members, x.route.key = rnZeros sh ∨ x.route.key = rnOnes sh ∨
    ∃ p, sh.n0 < p ∧ p ≤ sh.nbits ∧ Stands sh p x.route
  clean : ∀ i, mh.lastZeroed ≤ i → sh.off ≤ i → byteAt mh.addmaskKey i = 0#8
  top : TopBit 0 mh.top

theorem trimLen_le (k : Key) (n : Nat) : trimLen k n ≤ n := by
  induction n with
  | zero => exact Nat.le_refl 0
  | succ n ih =>
    rw [trimLen]
    split <;> omega

theorem trimLen_zero (h : trimLen k n ≤ i) (hn : i < n) : byteAt k i = 0#8 := by
  induction n with
  | zero => omega
  | succ n ih =>
    rw [trimLen] at h
    split at h
    · next hz =>
      obtain rfl | hlt : i = n ∨ i < n := by omega
      · exact hz
      · exact ih h hlt
    · omega

theorem trimLen_last (h : 0 < trimLen k n) : byteAt k (trimLen k n - 1) ≠ 0#8 := by
  induction n with
  | zero => simp [trimLen] at h
  | succ n ih =>
    rw [trimLen] at h ⊢
    split
    · next hz =>
      rw [if_pos hz] at h
      exact ih h
    · next hz => exact hz

section AddMask
variable {sh : Shape} {mh : MaskHead}

theorem maskByte_some (m : NetMask sh) (hi : sh.off ≤ i) :
    maskByte (some m) i = normalChars.getD (min 8 (m.plen - 8 * i)) 0 := by
  apply byte_ext
  intro j hj
  rw [byteBit_normalChars (by omega) hj]
  have hb := m.contiguous (8 * i + j) (by unfold Shape.n0; omega)
  rw [bitSet_eq, show (8 * i + j) / 8 = i by omega, show (8 * i + j) % 8 = j by omega] at hb
  have hlt : (8 * i + j < m.plen) = (j < min 8 (m.plen - 8 * i)) := by
    apply propext
    omega
  simp only [hlt] at hb
  rw [← hb, maskByte]
  split
  · next h => simp [h]
  · next h => simp [h, byteBit_zero]

theorem plen_le_len (m : NetMask sh) (h : sh.n0 < m.plen) : m.plen ≤ 8 * (byteAt m.bytes 0).toNat := by
  have hb := m.contiguous (m.plen - 1) (by omega)
  have hlt : decide (m.plen - 1 < m.plen) = true := by
    rw [decide_eq_true_eq]
    omega
  rw [hlt, Bool.and_eq_true, decide_eq_true_eq] at hb
  omega

theorem byteAt_copyMask (netmask buf : Key) (skip mlen i : Nat) (hi : i < sh.maxKeylen) :
    byteAt (copyMask sh netmask skip mlen buf) i = if 1 ≤ i ∧ i < skip then 0xff#8
      else if skip ≤ i ∧ i < mlen then byteAt netmask i else byteAt buf i := by
  rw [copyMask, byteAt_map, if_pos hi]

theorem byteAt_copyMask_mask (m : NetMask sh) (buf : Key) (hm0 : m0 = min (byteAt m.bytes 0).toNat sh.maxKeylen)
    (hi : sh.off ≤ i) (him : i < m0) :
    byteAt (copyMask sh m.bytes sh.off m0 buf) i = normalChars.getD (min 8 (m.plen - 8 * i)) 0 := by
  rw [byteAt_copyMask _ _ _ _ _ (by omega), if_neg (by omega), if_pos ⟨hi, him⟩, ← maskByte_some m hi, maskByte,
    if_pos (by omega)]

theorem normalChars_eq_zero (hq : q ≤ 8) : normalChars.getD q 0 = 0#8 ↔ q = 0 := by
  have all : ∀ q < 9, normalChars.getD q 0 = 0#8 ↔ q = 0 := by decide
  exact all q (by omega)

/-- The zeros at the end of a mask are trimmed. -/
theorem trimLen_copyMask (m : NetMask sh) (buf : Key) (hm0 : m0 = min (byteAt m.bytes 0).toNat sh.maxKeylen)
    (h : sh.n0 < m.plen) : trimLen (copyMask sh m.bytes sh.off m0 buf) m0 = (m.plen + 7) / 8 := by
  have hlen := plen_le_len m h
  have hle := m.plen_le
  have h1 := sh.vlen_le
  have h2 := sh.off_pos
  unfold Shape.n0 at h
  unfold Shape.nbits at hle
  have hget := fun i hi him => byteAt_copyMask_mask m buf (i := i) hm0 hi him
  generalize copyMask sh m.bytes sh.off m0 buf = k at hget ⊢
  have hgt : (m.plen - 1) / 8 < trimLen k m0 := by
    by_contra hn
    have hz := trimLen_zero (k := k) (n := m0) (i := (m.plen - 1) / 8) (by omega) (by omega)
    rw [hget _ (by omega) (by omega), normalChars_eq_zero (by omega)] at hz
    omega
  have hnz := trimLen_last (k := k) (n := m0) (by omega)
  have htop := trimLen_le k m0
  rw [hget _ (by omega) (by omega), Ne, normalChars_eq_zero (by omega)] at hnz
  omega

theorem trimLen_empty (m : NetMask sh) (buf : Key) (hm0 : m0 = min (byteAt m.bytes 0).toNat sh.maxKeylen)
    (h : m.plen = sh.n0) : trimLen (copyMask sh m.bytes sh.off m0 buf) m0 ≤ sh.off := by
  have hget := fun i hi him => byteAt_copyMask_mask m buf (i := i) hm0 hi him
  generalize copyMask sh m.bytes sh.off m0 buf = k at hget ⊢
  by_contra hn
  have htop := trimLen_le k m0
  apply trimLen_last (k := k) (n := m0) (by omega)
  rw [hget _ (by omega) (by omega), normalChars_eq_zero (by omega), h]
  unfold Shape.n0
  omega

/-- The buffer then holds the copy of the mask, whatever was in it before. -/
theorem sealMask_eq (h : MasksOk sh mh) (m : NetMask sh) (hm0 : m0 = min (byteAt m.bytes 0).toNat sh.maxKeylen)
    (hp : sh.n0 < m.plen) :
    sealMask sh m0 mh.lastZeroed ((m.plen + 7) / 8) (copyMask sh m.bytes sh.off m0 mh.addmaskKey) =
      maskKey sh m.plen := by
  have hlen := plen_le_len m hp
  have hle := m.plen_le
  unfold Shape.n0 at hp
  unfold Shape.nbits at hle
  refine List.map_congr_left ?_
  intro i hi
  rw [List.mem_range] at hi
  by_cases h0 : i = 0
  · rw [if_pos h0, if_pos h0]
  rw [if_neg h0, if_neg h0]
  by_cases hoff : i < sh.off
  · rw [if_neg (by omega), byteAt_copyMask _ _ _ _ _ hi, if_pos (by omega), show min 8 (m.plen - 8 * i) = 8 by omega]
    rfl
  by_cases him : i < m0
  · rw [if_neg (by omega), byteAt_copyMask_mask m _ hm0 (by omega) him]
  -- beyond the mask the buffer was zeroed, now or by an earlier call
  rw [show min 8 (m.plen - 8 * i) = 0 by omega]
  by_cases hz : i < mh.lastZeroed
  · rw [if_pos (by omega)]
    rfl
  · rw [if_neg (by omega), byteAt_copyMask _ _ _ _ _ hi, if_neg (by omega), if_neg (by omega),
      h.clean i (by omega) (by omega)]
    rfl

theorem onesLen_eq {m : Key} (hij : i ≤ j) (hjn : j ≤ i + n) (hones : ∀ l, i ≤ l → l < j → byteAt m l = 0xff#8)
    (hstop : j < i + n → byteAt m j ≠ 0xff#8) : onesLen m i n = j := by
  induction n generalizing i with
  | zero =>
    rw [onesLen]
    omega
  | succ n ih =>
    rw [onesLen]
    obtain rfl | hlt : i = j ∨ i < j := by omega
    · rw [if_neg (hstop (by omega))]
    · rw [if_pos (hones i (Nat.le_refl i) hlt)]
      exact ih hlt (by omega) (fun l h1 h2 => hones l (by omega) h2) (fun h => hstop (by omega))

theorem normalChars_eq_ones (hq : q ≤ 8) : normalChars.getD q 0 = 0xff#8 ↔ q = 8 := by
  have all : ∀ q < 9, normalChars.getD q 0 = 0xff#8 ↔ q = 8 := by decide
  exact all q (by omega)

theorem leadOnes_normalChars (hq : q < 8) : leadOnes (normalChars.getD q 0) 8 0x80#8 0 = q := by
  have all : ∀ q < 8, leadOnes (normalChars.getD q 0) 8 0x80#8 0 = q := by decide
  exact all q hq

/-- The index of a contiguous mask is its length, and it is normal. -/
theorem maskIndex_maskKey (h0 : sh.n0 < p) (hp : p ≤ sh.nbits) :
    maskIndex (maskKey sh p) sh.off ((p + 7) / 8) = (p, true) := by
  have h1 := sh.off_pos
  unfold Shape.n0 at h0
  have hcp : onesLen (maskKey sh p) sh.off ((p + 7) / 8 - sh.off) = p / 8 := by
    apply onesLen_eq (by omega) (by omega)
    · intro l hl hlp
      rw [byteAt_maskKey hp (by omega), normalChars_eq_ones (by omega)]
      omega
    · intro hlt
      rw [byteAt_maskKey hp (by omega), Ne, normalChars_eq_ones (by omega)]
      omega
  unfold maskIndex
  simp only [hcp]
  by_cases h8 : p / 8 = (p + 7) / 8
  · rw [if_pos h8]
    simp only [Prod.mk.injEq, and_true]
    omega
  · rw [if_neg h8, byteAt_maskKey hp (by omega), show min 8 (p - 8 * (p / 8)) = p % 8 by omega,
      leadOnes_normalChars (by omega)]
    simp only [decide_true, Bool.true_and, Prod.mk.injEq, decide_eq_true_eq]
    omega

theorem keepMask_maskKey (h0 : sh.n0 < p) : keepMask sh ((p + 7) / 8) (maskKey sh p) = maskKey sh p := by
  refine List.map_congr_left ?_
  intro i hi
  rw [List.mem_range] at hi
  split
  · rw [maskKey, byteAt_map, if_pos hi]
  · rw [if_neg (by omega), show min 8 (p - 8 * i) = 0 by omega]
    rfl

theorem stands_of_bytes (h : MasksOk sh mh) (h0 : sh.n0 < p) (hp : p ≤ sh.nbits) {x : Leaf} (hx : x ∈ mh.top.members)
    (heq : diffByte (maskKey sh p) x.route.key 0 ((p + 7) / 8) = none) : Stands sh p x.route := by
  have h1 := sh.maxKeylen_lt
  have h2 := sh.vlen_le
  have h3 := sh.off_lt
  have hp' := hp
  unfold Shape.nbits at hp'
  rw [diffByte_none] at heq
  have hlen := congrArg BitVec.toNat (heq 0 (Nat.le_refl 0) (by omega))
  rw [byteAt_maskKey_len hp] at hlen
  rcases h.leaves x hx with hz | ho | ⟨q, hq0, hq, hs⟩
  · rw [hz, byteAt_rnZeros, BitVec.toNat_ofNat] at hlen
    omega
  · rw [ho, byteAt_rnOnes (by omega), BitVec.toNat_ofNat] at hlen
    omega
  · rw [hs.key, if_neg (by omega)] at heq
    rwa [maskKey_inj hp hq h0 hq0 fun i hi => heq i (by omega) (by omega)]

theorem topBit_plug (cs : List Crumb) (c : Crumb) (t : Tree) : TopBit c.b (plug (cs ++ [c]) t) := by
  induction cs generalizing t with
  | nil =>
    cases h : c.right
    · exact ⟨c.d, t, c.sib, by simp [Crumb.fill, h]⟩
    · exact ⟨c.d, c.sib, t, by simp [Crumb.fill, h]⟩
  | cons x cs ih => exact ih (x.fill t)

theorem plug_place (v : Key) (b : Nat) (top : Tree) : plug (place v b top).1 (place v b top).2 = top := by
  cases top with
  | leaf ch => rfl
  | node d c l r =>
    rw [place]
    split <;> simp [plug_descendTo, Crumb.fill]

theorem place_path {top : Tree} {c : Nat} (h : TopBit c top) (v : Key) (b : Nat) :
    ∃ cs x, (place v b top).1 = cs ++ [x] ∧ x.b = c := by
  obtain ⟨d, l, r, rfl⟩ := h
  rw [place]
  split
  · obtain ⟨pre, hpre⟩ := descendTo_path (bitSet v) b r [⟨d, c, true, l⟩]
    exact ⟨pre, _, hpre, rfl⟩
  · obtain ⟨pre, hpre⟩ := descendTo_path (bitSet v) b l [⟨d, c, false, r⟩]
    exact ⟨pre, _, hpre, rfl⟩

theorem internMask_spec (h : MasksOk sh mh) (h0 : sh.n0 < p) (hp : p ≤ sh.nbits) (hbuf : mh.addmaskKey = maskKey sh p)
    (search : Bool) :
    MasksOk sh (internMask sh search sh.off ((p + 7) / 8) mh).2 ∧
      (search = false → (internMask sh search sh.off ((p + 7) / 8) mh).1.isSome) ∧
      ∀ x, (internMask sh search sh.off ((p + 7) / 8) mh).1 = some x → Stands sh p x := by
  have hfound : ∀ x ∈ (rnSearch (maskKey sh p) mh.top).2, x ∈ mh.top.members := descend_subset _ _ _
  unfold internMask
  simp only [hbuf]
  generalize hf : (rnSearch (maskKey sh p) mh.top).2 = found at hfound
  cases hx : found.head?.filter (fun x => (diffByte (maskKey sh p) x.route.key 0 ((p + 7) / 8)).isNone) with
  | some x =>
    obtain ⟨hh, heq⟩ := Option.filter_eq_some_iff.1 hx
    simp only [Option.isSome_some, Bool.true_or, if_true, Option.map_some, Option.some.injEq]
    refine ⟨h, fun _ => trivial, ?_⟩
    rintro y rfl
    exact stands_of_bytes h h0 hp (hfound x (List.mem_of_mem_head? hh)) (by simpa using heq)
  | none =>
    cases search with
    | true => simpa using h
    | false =>
      simp only [Option.isSome_none, Bool.or_false, Bool.false_eq_true, if_false, keepMask_maskKey h0]
      unfold rnInsert
      simp only [hf, h.top.headOff, Nat.zero_div, byteAt_maskKey_len hp, Nat.sub_zero]
      cases hd : diffByte (maskKey sh p) (chainKey found) 0 ((p + 7) / 8) with
      | none =>
        -- the search found no equal mask, so neither does the insertion
        exfalso
        cases found with
        | nil =>
          have hz := diffByte_none.1 hd 0 (Nat.le_refl 0) (by omega)
          have hlen := byteAt_maskKey_len hp
          rw [hz] at hlen
          change 0 = (p + 7) / 8 at hlen
          omega
        | cons y ys =>
          rw [chainKey] at hd
          simp [hd] at hx
      | some i =>
        simp only [maskIndex_maskKey h0 hp]
        refine ⟨⟨?_, hbuf ▸ h.clean, ?_⟩, fun _ => rfl, ?_⟩
        · intro x hx
          rcases mem_plug.1 hx with hx | hx
          · refine .inr (.inr ⟨p, h0, hp, ?_⟩)
            rw [members_leaf, List.mem_singleton] at hx
            subst hx
            exact ⟨by rw [if_neg (by omega)], by rw [if_neg (by omega)], by simp; omega⟩
          · apply h.leaves
            rw [newpair, outside_cons] at hx
            rw [← plug_place (maskKey sh p) (countDown 8 ((i + 1) * 8) _) mh.top]
            exact mem_plug.2 (List.mem_append.1 hx)
        · obtain ⟨cs, x, hcs, hxb⟩ := place_path h.top (maskKey sh p)
            (countDown 8 ((i + 1) * 8) (byteAt (maskKey sh p) i ^^^ byteAt (chainKey found) i))
          simp only [hcs, ← List.cons_append, ← hxb]
          exact topBit_plug _ _ _
        · intro x hx
          rw [Option.some.injEq] at hx
          subst hx
          exact ⟨by rw [if_neg (by omega)], by rw [if_neg (by omega)], by simp; omega⟩

/-- `rn_addmask` keeps one copy for all masks of a length, and without `search` always has it. -/
theorem rnAddmask_spec (h : MasksOk sh mh) (m : NetMask sh) (search : Bool) :
    MasksOk sh (rnAddmask sh m.bytes search sh.off mh).2 ∧
      (search = false → (rnAddmask sh m.bytes search sh.off mh).1.isSome) ∧
      ∀ x, (rnAddmask sh m.bytes search sh.off mh).1 = some x → Stands sh m.plen x := by
  have hoff := sh.off_pos
  have h1 := sh.vlen_le
  have h2 := sh.off_lt
  have hle := m.plen_le
  have hn0 := m.n0_le
  have hzero : ∀ x, some (zerosLeaf sh 0) = some x → m.plen = sh.n0 → Stands sh m.plen x := by
    intro x hx hp
    rw [Option.some.injEq] at hx
    subst hx
    exact ⟨by rw [if_pos hp]; rfl, by rw [if_pos hp]; rfl, by simp [zerosLeaf, hp]⟩
  unfold rnAddmask
  simp only [show ¬sh.off = 0 by omega, if_false]
  generalize hm0 : min (byteAt m.bytes 0).toNat sh.maxKeylen = m0
  by_cases hp : m.plen = sh.n0
  · have htrim := trimLen_empty m mh.addmaskKey hm0.symm hp
    by_cases hlt : m0 ≤ sh.off
    · rw [if_pos hlt]
      exact ⟨h, fun _ => rfl, fun x hx => hzero x hx hp⟩
    · rw [if_neg hlt, if_pos htrim]
      refine ⟨⟨h.leaves, ?_, h.top⟩, fun _ => rfl, fun x hx => hzero x hx hp⟩
      intro i hi hio
      dsimp only at hi ⊢
      by_cases him : i < m0
      · exact trimLen_zero (by omega) him
      · have hz : mh.lastZeroed ≤ i := by
          split at hi <;> omega
        by_cases himax : i < sh.maxKeylen
        · rw [byteAt_copyMask _ _ _ _ _ himax, if_neg (by omega), if_neg (by omega), h.clean i hz hio]
        · rw [copyMask, byteAt_map, if_neg himax]
  · have hgt : sh.n0 < m.plen := by omega
    have hlen := plen_le_len m hgt
    have hs := sealMask_eq h m hm0.symm hgt
    have htrim := trimLen_copyMask m mh.addmaskKey hm0.symm hgt
    have hle' := hle
    have hgt' := hgt
    unfold Shape.nbits at hle'
    unfold Shape.n0 at hgt'
    rw [if_neg (by omega), htrim, if_neg (by omega), hs]
    have hmh : MasksOk sh { mh with addmaskKey := maskKey sh m.plen, lastZeroed := (m.plen + 7) / 8 } := by
      refine ⟨h.leaves, ?_, h.top⟩
      intro i hi hio
      dsimp only at hi ⊢
      rw [byteAt_maskKey hle (by omega), show min 8 (m.plen - 8 * i) = 0 by omega]
      rfl
    exact internMask_spec hmh hgt hle rfl search

end AddMask

end BsdKernel.Radix
