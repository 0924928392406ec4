import BsdKernel.Lib.Bytes
import BsdKernel.Lib.OnesComplement
import Mathlib.Tactic
/-!
# The Internet checksum

The portable `in_cksum` of `inet/in_cksum.c` and the one of `inet/in_cksum_i386.c`, over
a chain of mbufs of any lengths at odd or even addresses. The portable one keeps its
carries in a 32-bit sum and swaps the bytes of the sum around a segment at an odd
address; `mlen == -1` says that a byte waits in `s_util.c[0]` for the other half of its
word.

Both keep to one invariant: the sum, with the byte that waits, has the one's-complement
value of the little-endian number that the bytes so far write (`Sums.Inv`). Since a
factor 256² does not count, neither the cuts nor the swaps show in the end
(`in_cksum_rfc1071`).
-/

namespace BsdKernel.InCksum

open BsdKernel.Lib BsdKernel.Lib.Ones

variable {L : Nat}

/-- The data of an mbuf, and whether its address is odd. -/
structure Mbuf where
  odd : Bool
  data : List Byte
  deriving DecidableEq, Repr

def chainBytes (ms : List Mbuf) : List Byte := ms.flatMap (·.data)

/-- The checksum of the bytes as little-endian words, the last one padded. -/
def rfc1071 (bs : List Byte) : Nat := 65535 - onesSum 65535 (words 256 (bs.map (·.toNat)))

/-- A `u_short` of two `char`s. -/
def halves (c₀ c₁ : Byte) : Nat := c₀.toNat + 256 * c₁.toNat

/-- The local variables of `in_cksum`: `c₀` is the first half of the union, and `w` the data from the cursor on, with
the parity of its address. -/
structure Sums where
  sum : Nat
  mlen : Int
  len : Int
  c₀ : Byte
  byteSwapped : Bool
  w : List Byte
  odd : Bool
  deriving DecidableEq, Repr

def start (len : Int) : Sums := ⟨0, 0, len, 0, false, [], false⟩

/-! ## The portable version -/

def ADDCARRY (x : Nat) : Nat := if x > 65535 then x - 65535 else x

def REDUCE (sum : Nat) : Nat := ADDCARRY (sum % 65536 + sum / 65536)

/-- `sum += x` on 32 bits -/
def add32 (sum x : Nat) : Nat := (sum + x) % 2 ^ 32

/-- `sum <<= 8` -/
def shift8 (sum : Nat) : Nat := sum * 256 % 2 ^ 32

/-- `sum += w[0]`, up to `w[k - 1]` -/
def addWords (sum : Nat) (w : List Byte) : Nat → Nat
  | 0 => sum
  | k + 1 => addWords (add32 sum (halves (w.getD 0 0) (w.getD 1 0))) (w.drop 2) k

/-- The loop over `k` words a turn, for at most so many turns. -/
def wordLoop (k : Nat) : Nat → Sums → Sums
  | 0, s => { s with mlen := s.mlen - 2 * k }
  | turns + 1, s =>
    if s.mlen - 2 * k ≥ 0 then
      wordLoop k turns { s with mlen := s.mlen - 2 * k, sum := addWords s.sum s.w k, w := s.w.drop (2 * k) }
    else { s with mlen := s.mlen - 2 * k }

/-- The cursor at the start of an mbuf, behind the half word that it completes. -/
def enter (m : Mbuf) (s : Sums) : Sums :=
  if s.mlen = -1 then
    { s with sum := add32 s.sum (halves s.c₀ (m.data.getD 0 0)), w := m.data.tail, odd := !m.odd,
             mlen := m.data.length - 1, len := s.len - 1 }
  else { s with w := m.data, odd := m.odd, mlen := m.data.length }

/-- No more than `len` bytes. -/
def clip (s : Sums) : Sums :=
  let mlen := if s.len < s.mlen then s.len else s.mlen
  { s with mlen := mlen, len := s.len - mlen }

/-- "Force to even boundary." -/
def boundary (s : Sums) : Sums :=
  if s.odd ∧ s.mlen > 0 then
    { s with sum := shift8 (REDUCE s.sum), c₀ := s.w.getD 0 0, w := s.w.tail, odd := false, mlen := s.mlen - 1,
             byteSwapped := true }
  else s

/-- The two unrolled loops. -/
def unrolled (s : Sums) : Sums :=
  let s := wordLoop 16 s.mlen.toNat s
  let s := { s with mlen := s.mlen + 32 }
  let s := wordLoop 4 s.mlen.toNat s
  { s with mlen := s.mlen + 8 }

/-- The loop over single words, and the bytes swapped back. -/
def leave (s : Sums) : Sums :=
  let s := { s with sum := REDUCE s.sum }
  let s := wordLoop 1 s.mlen.toNat s
  if s.byteSwapped then
    let s := { s with sum := shift8 (REDUCE s.sum), byteSwapped := false }
    if s.mlen = -1 then { s with sum := add32 s.sum (halves s.c₀ (s.w.getD 0 0)), mlen := 0 }
    else { s with mlen := -1 }
  else if s.mlen = -1 then { s with c₀ := s.w.getD 0 0 }
  else s

/-- A turn of the loop over the mbufs. -/
def cksumMbuf (s : Sums) (m : Mbuf) : Sums :=
  if m.data = [] then s
  else
    let s := unrolled (boundary (clip (enter m s)))
    if s.mlen = 0 ∧ s.byteSwapped = false then s else leave s

/-- The loop over the mbufs, with its body. -/
def cksumLoop (body : Sums → Mbuf → Sums) : List Mbuf → Sums → Sums
  | [], s => s
  | m :: ms, s => if s.len = 0 then s else cksumLoop body ms (body s m)

/-- `in_cksum` of `in_cksum.c` -/
def inCksum (ms : List Mbuf) (len : Int) : Nat :=
  let s := cksumLoop cksumMbuf ms (start len)
  let sum := if s.mlen = -1 then add32 s.sum (halves s.c₀ 0) else s.sum
  (2 ^ 32 - 1 - REDUCE sum) % 65536

/-! ## The i386 version -/

/-- `ADDCARRY` of `in_cksum_i386.c` -/
def ADDCARRY386 (sum : Nat) : Nat := if sum / 65536 ≠ 0 then sum % 65536 + 1 else sum

/-- Add by words; one that is not aligned goes through the union. -/
def wordLoop386 : Nat → Sums → Sums
  | 0, s => { s with mlen := s.mlen - 2 }
  | turns + 1, s =>
    if s.mlen - 2 ≥ 0 then
      wordLoop386 turns
        { s with mlen := s.mlen - 2, sum := ADDCARRY386 (add32 s.sum (halves (s.w.getD 0 0) (s.w.getD 1 0))),
                 c₀ := if s.odd then s.w.getD 0 0 else s.c₀, w := s.w.drop 2 }
    else { s with mlen := s.mlen - 2 }

/-- A turn of the loop over the mbufs. -/
def cksumMbuf386 (s : Sums) (m : Mbuf) : Sums :=
  if m.data = [] then s
  else
    let s := if s.mlen = -1 then { enter m s with sum := ADDCARRY386 (enter m s).sum } else enter m s
    let s := clip s
    let s := wordLoop386 s.mlen.toNat s
    if s.mlen = -1 then { s with c₀ := s.w.getD 0 0 } else s

/-- `in_cksum` of `in_cksum_i386.c` -/
def inCksum386 (ms : List Mbuf) (len : Int) : Nat :=
  let s := cksumLoop cksumMbuf386 ms (start len)
  let sum := if s.mlen = -1 then ADDCARRY386 (add32 s.sum (halves s.c₀ 0)) else s.sum
  (2 ^ 32 - 1 - sum) % 65536

/-! ## The value of some bytes -/

/-- The number that they write, the low byte first. -/
def value (bs : List Byte) : Nat := Nat.ofDigits 256 (bs.map (·.toNat))

/-- The sum of their words. -/
def wordSum (bs : List Byte) : Nat := (words 256 (bs.map (·.toNat))).sum

section Value
variable {xs ys : List Byte} {c₀ c₁ : Byte}

@[simp] theorem value_nil : value [] = 0 := rfl

theorem value_cons (b : Byte) (bs : List Byte) : value (b :: bs) = b.toNat + 256 * value bs := Nat.ofDigits_cons ..

theorem value_append (xs ys : List Byte) : value (xs ++ ys) = value xs + 256 ^ xs.length * value ys := by
  simp [value, List.map_append, Nat.ofDigits_append]

theorem value_even (ys : List Byte) (h : xs.length % 2 = 0) : Same 65535 (value (xs ++ ys)) (value xs + value ys) := by
  have hl : xs.length = 2 * (xs.length / 2) := by omega
  rw [value_append, hl]
  exact (Same.refl _ _).add (same_pow_even rfl _ _)

theorem value_odd (h : xs.length % 2 = 1) : Same 65535 (value (xs ++ ys)) (value xs + 256 * value ys) := by
  have hl : xs.length = 2 * (xs.length / 2) + 1 := by omega
  rw [value_append, hl]
  exact (Same.refl _ _).add (same_pow_odd rfl _ _)

theorem wordSum_same (bs : List Byte) : Same 65535 (wordSum bs) (value bs) := words_same rfl _

theorem wordSum_cons_cons (a b : Byte) (bs : List Byte) : wordSum (a :: b :: bs) = halves a b + wordSum bs := by
  simp [wordSum, words, halves]

theorem halves_le (a b : Byte) : halves a b ≤ 65535 := by
  have := a.isLt
  have := b.isLt
  unfold halves
  omega

theorem wordSum_le (h : xs.length % 2 = 0) : 2 * wordSum xs ≤ 65535 * xs.length := by
  induction xs using List.twoStepInduction with
  | nil => simp [wordSum, words]
  | singleton a => simp at h
  | cons_cons a b xs ih _ =>
    have := ih (by simp at h ⊢; omega)
    have := halves_le a b
    rw [wordSum_cons_cons]
    simp only [List.length_cons]
    omega

theorem wordSum_append (h : xs.length % 2 = 0) : wordSum (xs ++ ys) = wordSum xs + wordSum ys := by
  induction xs using List.twoStepInduction with
  | nil => simp [wordSum, words]
  | singleton a => simp at h
  | cons_cons a b xs ih _ =>
    rw [List.cons_append, List.cons_append, wordSum_cons_cons, wordSum_cons_cons, ih (by simp at h ⊢; omega)]
    omega

end Value

/-! ## Reducing -/

section Reduce
variable {x : Nat}

theorem reduce_same (x : Nat) : Same 65535 (REDUCE x) x := (same_carry 65535 _).trans (same_split 65535 x)

theorem reduce_le (h : x < 2 ^ 32) : REDUCE x ≤ 65535 := carry_le (m := 65535) (by omega)

theorem shift8_reduce (h : x < 2 ^ 32) : shift8 (REDUCE x) = 256 * REDUCE x := by
  have := reduce_le h
  rw [shift8]
  omega

theorem addCarry386_same (h : x ≤ 131070) : Same 65535 (ADDCARRY386 x) x ∧ ADDCARRY386 x ≤ 65535 := by
  have he : ADDCARRY386 x = carry 65535 x := by
    unfold ADDCARRY386 carry
    split_ifs <;> omega
  rw [he]
  exact ⟨same_carry 65535 x, carry_le (by omega)⟩

end Reduce

/-! ## The loops over words -/

section Loops
variable {s : Sums} {k n turns : Nat}

theorem addWords_eq {sum : Nat} {w : List Byte} (hw : 2 * k ≤ w.length) (hsum : sum + wordSum (w.take (2 * k)) < 2 ^ 32) :
    addWords sum w k = sum + wordSum (w.take (2 * k)) := by
  induction k generalizing sum w with
  | zero => simp [addWords, wordSum, words]
  | succ k ih =>
    obtain _ | ⟨a, _ | ⟨b, w⟩⟩ := w
    · simp at hw
    · simp at hw
      omega
    · have htake : (a :: b :: w).take (2 * (k + 1)) = a :: b :: w.take (2 * k) := rfl
      rw [htake, wordSum_cons_cons] at hsum ⊢
      have hadd : add32 sum (halves a b) = sum + halves a b := Nat.mod_eq_of_lt (by omega)
      have h0 : (a :: b :: w).getD 0 0 = a := rfl
      have h1 : (a :: b :: w).getD 1 0 = b := rfl
      have hd : (a :: b :: w).drop 2 = w := rfl
      rw [addWords, h0, h1, hd, hadd, ih (by simp at hw; omega) (by omega)]
      omega

/-- The loop takes all whole groups of `k` words. -/
theorem wordLoop_eq (hk : 0 < k) (hn : s.mlen = n) (hw : n ≤ s.w.length) (hturns : n ≤ turns)
    (hsum : s.sum + wordSum (s.w.take (n - n % (2 * k))) < 2 ^ 32) :
    wordLoop k turns s = { s with mlen := (n % (2 * k) : Nat) - 2 * k, sum := s.sum + wordSum (s.w.take (n - n % (2 * k))),
                                  w := s.w.drop (n - n % (2 * k)) } := by
  induction turns generalizing s n with
  | zero =>
    obtain rfl : n = 0 := by omega
    simp [wordLoop, hn, wordSum, words]
  | succ turns ih =>
    rw [wordLoop]
    by_cases hlt : n < 2 * k
    · have hmod : n % (2 * k) = n := Nat.mod_eq_of_lt hlt
      rw [if_neg (by omega), hmod, Nat.sub_self, hn]
      simp [wordSum, words]
    · have hmod : (n - 2 * k) % (2 * k) = n % (2 * k) := by
        conv_rhs => rw [← Nat.sub_add_cancel (Nat.le_of_not_lt hlt), Nat.add_mod_right]
      have hle : n % (2 * k) ≤ n - 2 * k := by
        rw [← hmod]
        exact Nat.mod_le _ _
      have hsplit : n - n % (2 * k) = 2 * k + (n - 2 * k - n % (2 * k)) := by omega
      have heven : (s.w.take (2 * k)).length % 2 = 0 := by
        rw [List.length_take]
        omega
      have hws : wordSum (s.w.take (n - n % (2 * k))) =
          wordSum (s.w.take (2 * k)) + wordSum ((s.w.drop (2 * k)).take (n - 2 * k - n % (2 * k))) := by
        rw [hsplit, List.take_add, wordSum_append heven]
      have hadd : addWords s.sum s.w k = s.sum + wordSum (s.w.take (2 * k)) :=
        addWords_eq (by omega) (by omega)
      rw [if_pos (by omega), hadd, ih (n := n - 2 * k)]
      · simp only [hmod, hws, List.drop_drop, Nat.add_assoc, ← hsplit]
      · simp only [hn]
        omega
      · simp only [List.length_drop]
        omega
      · omega
      · simp only [hmod]
        omega

theorem wordLoop_mod {d : Nat} (hk : 0 < k) (hd : 2 * k = d) (hn : s.mlen = n) (hw : n ≤ s.w.length) (hturns : n ≤ turns)
    (hsum : s.sum + wordSum (s.w.take (n - n % d)) < 2 ^ 32) :
    wordLoop k turns s = { s with mlen := (n % d : Nat) - (d : Int), sum := s.sum + wordSum (s.w.take (n - n % d)),
                                  w := s.w.drop (n - n % d) } := by
  subst hd
  rw [wordLoop_eq hk hn hw hturns hsum]
  push_cast
  rfl

theorem unrolled_eq (hn : s.mlen = n) (hw : n ≤ s.w.length)
    (hsum : s.sum + wordSum (s.w.take (n - n % 8)) < 2 ^ 32) :
    unrolled s = { s with mlen := (n % 8 : Nat), sum := s.sum + wordSum (s.w.take (n - n % 8)), w := s.w.drop (n - n % 8) } := by
  have hsplit : n - n % 8 = (n - n % 32) + (n % 32 - n % 32 % 8) := by omega
  have h8 : n % 32 % 8 = n % 8 := by omega
  have heven : (s.w.take (n - n % 32)).length % 2 = 0 := by
    rw [List.length_take]
    omega
  have hws : wordSum (s.w.take (n - n % 8)) =
      wordSum (s.w.take (n - n % 32)) + wordSum ((s.w.drop (n - n % 32)).take (n % 32 - n % 32 % 8)) := by
    rw [hsplit, List.take_add, wordSum_append heven]
  have h16 := wordLoop_mod (d := 32) (k := 16) (s := s) (by omega) rfl hn hw (by omega : n ≤ s.mlen.toNat) (by omega)
  have h4 := wordLoop_mod (d := 8) (k := 4) (n := n % 32)
    (s := { s with mlen := (n % 32 : Nat), sum := s.sum + wordSum (s.w.take (n - n % 32)), w := s.w.drop (n - n % 32) })
    (by omega) rfl rfl (by simp only [List.length_drop]; omega) (Nat.le_refl _) (by simp only; omega)
  have hback : ((n % 32 : Nat) : Int) - (32 : Nat) + 32 = (n % 32 : Nat) := by omega
  unfold unrolled
  rw [h16]
  simp only [hback, Int.toNat_natCast] at h4 ⊢
  rw [h4]
  simp only [h8, hws, List.drop_drop, Nat.add_assoc]
  congr 1
  · omega
  · congr 1
    omega

/-- The words of a segment, in both kinds of loops; the sum is reduced in between. -/
theorem words_spec (hn : s.mlen = n) (hw : n ≤ s.w.length) (hsum : 2 * s.sum + 65535 * n < 2 ^ 33) :
    ∃ x, Same 65535 x (s.sum + value (s.w.take (n - n % 2))) ∧ x ≤ 2 ^ 19 ∧
      wordLoop 1 (unrolled s).mlen.toNat { unrolled s with sum := REDUCE (unrolled s).sum } =
        { s with mlen := (n % 2 : Nat) - 2, sum := x, w := s.w.drop (n - n % 2) } := by
  have h8 : (s.w.take (n - n % 8)).length = n - n % 8 := by
    rw [List.length_take]
    omega
  have hrest : ((s.w.drop (n - n % 8)).take (n % 8 - n % 8 % 2)).length = n % 8 - n % 8 % 2 := by
    rw [List.length_take, List.length_drop]
    omega
  have hle8 := wordSum_le (by omega : (s.w.take (n - n % 8)).length % 2 = 0)
  have hlerest := wordSum_le (by omega : ((s.w.drop (n - n % 8)).take (n % 8 - n % 8 % 2)).length % 2 = 0)
  have hsum8 : s.sum + wordSum (s.w.take (n - n % 8)) < 2 ^ 32 := by omega
  have hred := reduce_le hsum8
  have hu := unrolled_eq hn hw hsum8
  refine ⟨REDUCE (s.sum + wordSum (s.w.take (n - n % 8))) + wordSum ((s.w.drop (n - n % 8)).take (n % 8 - n % 8 % 2)),
    ?_, ?_, ?_⟩
  · have hsplit : n - n % 2 = (n - n % 8) + (n % 8 - n % 8 % 2) := by omega
    have hv := (wordSum_same (s.w.take (n - n % 8))).add (wordSum_same ((s.w.drop (n - n % 8)).take (n % 8 - n % 8 % 2)))
    have heven : (s.w.take (n - n % 8)).length % 2 = 0 := by omega
    have hv2 := hv.trans (value_even _ heven).symm
    rw [← List.take_add, ← hsplit] at hv2
    have h := (reduce_same (s.sum + wordSum (s.w.take (n - n % 8)))).add
      (Same.refl 65535 (wordSum ((s.w.drop (n - n % 8)).take (n % 8 - n % 8 % 2))))
    rw [Nat.add_assoc] at h
    exact h.trans ((Same.refl 65535 s.sum).add hv2)
  · omega
  · have h2 := wordLoop_mod (d := 2) (k := 1) (n := n % 8) (s := { unrolled s with sum := REDUCE (unrolled s).sum })
      (by omega) rfl (by rw [hu]) (by rw [hu]; simp only [List.length_drop]; omega)
      (by rw [hu, Int.toNat_natCast] : n % 8 ≤ (unrolled s).mlen.toNat) (by rw [hu]; simp only; omega)
    rw [h2, hu]
    simp only [List.drop_drop]
    congr 1
    · omega
    · congr 1
      omega

end Loops

/-! ## One mbuf -/

/-- `cs` are the bytes so far: their value is in the sum and the byte that waits. -/
structure Sums.Inv (cs : List Byte) (s : Sums) : Prop where
  swapped : s.byteSwapped = false
  bound : 2 * s.sum + (if s.mlen = -1 then 65535 else 0) ≤ 2 ^ 25 + 65535 * cs.length
  value : Same 65535 (s.sum + if s.mlen = -1 then s.c₀.toNat else 0) (value cs)
  parity : cs.length % 2 = if s.mlen = -1 then 1 else 0

/-- The cursor is at the next `n` bytes of an mbuf, and no byte waits. -/
structure Sums.At (cs : List Byte) (s : Sums) (n : Nat) : Prop where
  mlen : s.mlen = n
  room : n ≤ s.w.length
  swapped : s.byteSwapped = false
  bound : 2 * s.sum ≤ 2 ^ 25 + 65535 * cs.length
  value : Same 65535 s.sum (InCksum.value cs)
  parity : cs.length % 2 = 0

section Mbuf
variable {cs : List Byte} {s : Sums} {m : Mbuf} {n : Nat}

/-- A byte that waits takes the first byte of the mbuf. -/
theorem Sums.Inv.enter (h : s.Inv cs) (hd : m.data ≠ []) (hL : s.len = L) (h0 : 0 < L) (hcs : cs.length + L ≤ 65535) :
    ∃ e ≤ min L m.data.length, (clip (enter m s)).w = m.data.drop e ∧
      (clip (enter m s)).len = (L - min L m.data.length : Nat) ∧
      (clip (InCksum.enter m s)).At (cs ++ m.data.take e) (min L m.data.length - e) := by
  obtain ⟨b, ds, hds⟩ := List.exists_cons_of_ne_nil hd
  have hbound := h.bound
  have hvalue := h.value
  have hparity := h.parity
  by_cases hp : s.mlen = -1
  · rw [if_pos hp] at hbound hvalue hparity
    have hle := halves_le s.c₀ b
    have hadd : add32 s.sum (halves s.c₀ b) = s.sum + halves s.c₀ b := Nat.mod_eq_of_lt (by omega)
    have hb : (b :: ds).getD 0 0 = b := rfl
    have hsame : Same 65535 (s.sum + halves s.c₀ b) (InCksum.value (cs ++ [b])) := by
      have hv := (hvalue.add (Same.refl 65535 (256 * InCksum.value [b]))).trans (value_odd hparity).symm
      rw [value_cons, value_nil, Nat.mul_zero, Nat.add_zero, Nat.add_assoc] at hv
      exact hv
    refine ⟨1, by rw [hds]; simp only [List.length_cons]; omega, ?_⟩
    simp only [clip, InCksum.enter, if_pos hp, hds, hb, hadd, hL, List.length_cons, List.tail_cons]
    refine ⟨rfl, ?_, ?_, ?_, h.swapped, ?_, hsame, ?_⟩
    · split_ifs <;> omega
    · simp only
      split_ifs <;> omega
    · simp only
      omega
    · simp only [List.length_append, List.length_take, List.length_cons]
      omega
    · simp only [List.length_append, List.length_take, List.length_cons]
      omega
  · rw [if_neg hp] at hbound hvalue hparity
    refine ⟨0, Nat.zero_le _, ?_⟩
    simp only [clip, InCksum.enter, if_neg hp, hL]
    refine ⟨rfl, ?_, ?_, Nat.min_le_right _ _, h.swapped, ?_, ?_, ?_⟩
    · split_ifs <;> omega
    · simp only
      split_ifs <;> omega
    · simpa using hbound
    · simpa using hvalue
    · simpa using hparity

theorem take_last {w : List Byte} {k : Nat} (h : k < w.length) : w.take (k + 1) = w.take k ++ [(w.drop k).getD 0 0] := by
  rw [List.take_succ_eq_append_getElem h]
  simp [List.getD, h]

/-- A segment at an even address. -/
theorem Sums.At.even (h : s.At cs n) (hcs : cs.length + n ≤ 65535) (hodd : ¬(s.odd = true ∧ 0 < n)) :
    let u := unrolled (boundary s)
    let f := if u.mlen = 0 ∧ u.byteSwapped = false then u else leave u
    f.Inv (cs ++ s.w.take n) ∧ f.len = s.len := by
  have hb : boundary s = s := by
    refine if_neg fun hc => hodd ⟨hc.1, ?_⟩
    have := h.mlen
    omega
  have hbound := h.bound
  have hroom := h.room
  have htake : (s.w.take n).length = n := List.length_take_of_le h.room
  have hpar := h.parity
  simp only [hb]
  by_cases h8 : n % 8 = 0
  · have hle := wordSum_le (by omega : (s.w.take n).length % 2 = 0)
    have hu := unrolled_eq h.mlen h.room (by rw [h8, Nat.sub_zero]; omega)
    rw [h8, Nat.sub_zero] at hu
    rw [hu, if_pos ⟨rfl, h.swapped⟩]
    have hm : ¬((0 : Nat) : Int) = -1 := by omega
    refine ⟨⟨h.swapped, ?_, ?_, ?_⟩, rfl⟩
    · simp only [if_neg hm, List.length_append]
      omega
    · have hv := (h.value.add (wordSum_same (s.w.take n))).trans (value_even _ h.parity).symm
      simpa using hv
    · simp only [if_neg hm, List.length_append]
      omega
  · obtain ⟨x, hx, hxle, hwords⟩ := words_spec h.mlen h.room (by omega)
    have hum : (unrolled s).mlen ≠ 0 := by
      have hle := wordSum_le (by rw [List.length_take]; omega : (s.w.take (n - n % 8)).length % 2 = 0)
      rw [List.length_take] at hle
      rw [unrolled_eq h.mlen h.room (by omega)]
      simp only
      omega
    have hsum := (hx.trans ((h.value.add (Same.refl _ _)))).trans (value_even _ h.parity).symm
    rw [if_neg (fun hc => hum hc.1), leave]
    simp only [hwords, h.swapped, Bool.false_eq_true, if_false]
    by_cases h2 : n % 2 = 1
    · have hlast := take_last (w := s.w) (k := n - 1) (by have := h.room; omega)
      rw [Nat.sub_add_cancel (by omega)] at hlast
      have hm : ((n % 2 : Nat) : Int) - 2 = -1 := by omega
      rw [if_pos hm]
      refine ⟨⟨rfl, ?_, ?_, ?_⟩, rfl⟩
      · simp only [if_pos hm, List.length_append]
        omega
      · have hodd' : (cs ++ s.w.take (n - 1)).length % 2 = 0 := by
          simp only [List.length_append, List.length_take]
          omega
        rw [h2] at hsum
        have hv := (hsum.add (Same.refl 65535 (InCksum.value [(s.w.drop (n - 1)).getD 0 0]))).trans (value_even _ hodd').symm
        rw [List.append_assoc, ← hlast] at hv
        simpa [hm, value_cons, h2] using hv
      · simp only [if_pos hm, List.length_append]
        omega
    · have h0 : n % 2 = 0 := by omega
      have hm : ¬((n % 2 : Nat) : Int) - 2 = -1 := by omega
      rw [if_neg hm]
      refine ⟨⟨rfl, ?_, ?_, ?_⟩, rfl⟩
      · simp only [if_neg hm, List.length_append]
        omega
      · simp only [if_neg hm, Nat.add_zero]
        rwa [h0, Nat.sub_zero] at hsum
      · simp only [if_neg hm, List.length_append]
        omega

/-- A segment at an odd address: its first byte waits while the sum has its bytes swapped. -/
theorem Sums.At.odd (h : s.At cs n) (hcs : cs.length + n ≤ 65535) (hodd : s.odd = true ∧ 0 < n) :
    let u := unrolled (boundary s)
    let f := if u.mlen = 0 ∧ u.byteSwapped = false then u else leave u
    f.Inv (cs ++ s.w.take n) ∧ f.len = s.len := by
  obtain ⟨k, rfl⟩ : ∃ k, n = k + 1 := ⟨n - 1, by omega⟩
  have hbound := h.bound
  have hroom := h.room
  have hpar := h.parity
  obtain ⟨b, ws, hws⟩ := List.exists_cons_of_length_pos (l := s.w) (by omega)
  have hk : k ≤ ws.length := by
    rw [hws, List.length_cons] at hroom
    omega
  have hred := reduce_le (x := s.sum) (by omega)
  have hb : boundary s = { s with sum := 256 * REDUCE s.sum, c₀ := b, w := ws, odd := false, mlen := (k : Nat),
                                  byteSwapped := true } := by
    rw [boundary, if_pos ⟨hodd.1, by rw [h.mlen]; omega⟩, shift8_reduce (by omega), hws, h.mlen]
    simp
  obtain ⟨x, hx, hxle, hwords⟩ := words_spec (s := boundary s) (n := k) (by rw [hb]) (by rw [hb]; exact hk)
    (by rw [hb]; simp only; omega)
  have hswap : (unrolled (boundary s)).byteSwapped = true := by
    have hle := wordSum_le (by rw [List.length_take]; omega : (ws.take (k - k % 8)).length % 2 = 0)
    rw [List.length_take] at hle
    rw [unrolled_eq (s := boundary s) (n := k) (by rw [hb]) (by rw [hb]; exact hk) (by rw [hb]; simp only; omega), hb]
  have hxsum : Same 65535 (256 * REDUCE x) (s.sum + 256 * InCksum.value (ws.take (k - k % 2))) := by
    have h1 := ((reduce_same x).trans hx).mul_left 256
    rw [hb] at h1
    simp only [Nat.mul_add, ← Nat.mul_assoc] at h1
    have h2 := (same_base 65535 (REDUCE s.sum)).trans (reduce_same s.sum)
    exact h1.trans (h2.add (Same.refl _ _))
  have hshift := shift8_reduce (x := x) (by omega)
  have hrx := reduce_le (x := x) (by omega)
  simp only [hswap]
  rw [if_neg (by simp), leave]
  simp only [hwords]
  rw [hb]
  simp only [if_true, hshift, hws, List.take_succ_cons]
  have hbyte : Same 65535 (s.sum + b.toNat) (InCksum.value (cs ++ [b])) := by
    have hv := (h.value.add (Same.refl 65535 (InCksum.value [b]))).trans (value_even _ h.parity).symm
    simpa [value_cons] using hv
  have hone : (cs ++ [b]).length % 2 = 1 := by
    rw [List.length_append, List.length_singleton]
    omega
  have happend : ∀ r, Same 65535 (s.sum + b.toNat + 256 * InCksum.value r) (InCksum.value (cs ++ b :: r)) := by
    intro r
    have hv := (hbyte.add (Same.refl 65535 (256 * InCksum.value r))).trans (value_odd hone).symm
    rwa [List.append_assoc, List.singleton_append] at hv
  by_cases h2 : k % 2 = 1
  · have hlast := take_last (w := ws) (k := k - 1) (by omega)
    rw [Nat.sub_add_cancel (by omega)] at hlast
    have hm : ((k % 2 : Nat) : Int) - 2 = -1 := by omega
    have h0 : ¬(0 : Int) = -1 := by omega
    have hle := halves_le b ((ws.drop (k - 1)).getD 0 0)
    have hadd : add32 (256 * REDUCE x) (halves b ((ws.drop (k - 1)).getD 0 0)) =
        256 * REDUCE x + halves b ((ws.drop (k - 1)).getD 0 0) := Nat.mod_eq_of_lt (by omega)
    rw [h2] at hxsum
    rw [if_pos hm, h2, hadd]
    refine ⟨⟨rfl, ?_, ?_, ?_⟩, rfl⟩
    · simp only [if_neg h0, List.length_append, List.length_cons, List.length_take]
      omega
    · simp only [if_neg h0, Nat.add_zero]
      have hlen : (ws.take (k - 1)).length % 2 = 0 := by
        rw [List.length_take]
        omega
      have hr := ((value_even [(ws.drop (k - 1)).getD 0 0] hlen).mul_left 256).symm
      rw [← hlast, value_cons, value_nil, Nat.mul_zero, Nat.add_zero] at hr
      have hv := (hxsum.add (Same.refl 65535 (halves b ((ws.drop (k - 1)).getD 0 0))))
      have hv2 := ((Same.refl 65535 (s.sum + b.toNat)).add hr).trans (happend (ws.take k))
      refine hv.trans ?_
      rw [halves]
      rw [Nat.mul_add] at hv2
      convert hv2 using 1
      omega
    · simp only [if_neg h0, List.length_append, List.length_cons, List.length_take]
      omega
  · have h0 : k % 2 = 0 := by omega
    have hm : ¬((k % 2 : Nat) : Int) - 2 = -1 := by omega
    rw [h0, Nat.sub_zero] at hxsum
    rw [if_neg hm]
    refine ⟨⟨rfl, ?_, ?_, ?_⟩, rfl⟩
    · simp only [if_true, List.length_append, List.length_cons, List.length_take]
      omega
    · simp only [if_true]
      have hv := hxsum.add (Same.refl 65535 b.toNat)
      rw [Nat.add_right_comm] at hv
      exact hv.trans (happend (ws.take k))
    · simp only [if_true, List.length_append, List.length_cons, List.length_take]
      omega

theorem Sums.Inv.mbuf (h : s.Inv cs) (hL : s.len = L) (h0 : 0 < L) (hcs : cs.length + L ≤ 65535) :
    (cksumMbuf s m).Inv (cs ++ m.data.take L) ∧ (cksumMbuf s m).len = (L - min L m.data.length : Nat) := by
  unfold cksumMbuf
  by_cases hd : m.data = []
  · rw [if_pos hd, hd]
    exact ⟨by simpa using h, by simpa using hL⟩
  · rw [if_neg hd]
    obtain ⟨e, he, hw, hlen, hat⟩ := h.enter hd hL h0 hcs
    have htake : cs ++ m.data.take L = cs ++ m.data.take e ++ (clip (InCksum.enter m s)).w.take (min L m.data.length - e) := by
      rw [hw, List.append_assoc, ← List.take_add, Nat.add_sub_cancel' he, List.take_eq_take_min]
    have hle : (cs ++ m.data.take e).length + (min L m.data.length - e) ≤ 65535 := by
      simp only [List.length_append, List.length_take]
      omega
    rw [htake, ← hlen]
    by_cases hodd : (clip (InCksum.enter m s)).odd = true ∧ 0 < min L m.data.length - e
    · exact hat.odd hle hodd
    · exact hat.even hle hodd

end Mbuf

/-! ## One mbuf on the i386 -/

/-- The invariant of the i386 version, whose sum has 16 bits after every word. -/
structure Sums.Inv386 (cs : List Byte) (s : Sums) : Prop where
  bound : s.sum ≤ 65535
  value : Same 65535 (s.sum + if s.mlen = -1 then s.c₀.toNat else 0) (value cs)
  parity : cs.length % 2 = if s.mlen = -1 then 1 else 0

section Mbuf386
variable {cs : List Byte} {s : Sums} {m : Mbuf} {n : Nat}

theorem addWord386 {x : Nat} (a b : Byte) (hx : x ≤ 65535) :
    ADDCARRY386 (add32 x (halves a b)) ≤ 65535 ∧ Same 65535 (ADDCARRY386 (add32 x (halves a b))) (x + halves a b) := by
  have hle := halves_le a b
  have hadd : add32 x (halves a b) = x + halves a b := Nat.mod_eq_of_lt (by omega)
  rw [hadd]
  exact (addCarry386_same (by omega)).symm

/-- The loop takes all whole words. -/
theorem wordLoop386_spec (turns : Nat) (hn : s.mlen = n) (hw : n ≤ s.w.length) (hturns : n ≤ turns)
    (hsum : s.sum ≤ 65535) :
    let r := wordLoop386 turns s
    r.mlen = (n % 2 : Nat) - 2 ∧ r.w = s.w.drop (n - n % 2) ∧ r.len = s.len ∧ r.sum ≤ 65535 ∧
      Same 65535 r.sum (s.sum + value (s.w.take (n - n % 2))) := by
  induction turns generalizing s n with
  | zero =>
    obtain rfl : n = 0 := by omega
    rw [wordLoop386]
    exact ⟨by rw [hn], rfl, rfl, hsum, by simpa using Same.refl 65535 s.sum⟩
  | succ turns ih =>
    rw [wordLoop386]
    obtain hlt | ⟨k, rfl⟩ : n < 2 ∨ ∃ k, n = k + 2 := by
      obtain _ | _ | k := n
      · exact Or.inl (by omega)
      · exact Or.inl (by omega)
      · exact Or.inr ⟨k, rfl⟩
    · have hmod : n % 2 = n := Nat.mod_eq_of_lt hlt
      rw [if_neg (by omega), hmod, Nat.sub_self]
      exact ⟨by simp only [hn], rfl, rfl, hsum, by simpa using Same.refl 65535 s.sum⟩
    · obtain ⟨a, t, ht⟩ := List.exists_cons_of_length_pos (l := s.w) (by omega)
      obtain ⟨b, ws, rfl⟩ := List.exists_cons_of_length_pos (l := t) (by rw [ht, List.length_cons] at hw; omega)
      have hws := ht
      rw [hws, List.length_cons, List.length_cons] at hw
      have hmod : k + 2 - (k + 2) % 2 = k - k % 2 + 2 := by omega
      have hmod2 : (k + 2) % 2 = k % 2 := by omega
      have hget0 : (a :: b :: ws).getD 0 0 = a := rfl
      have hget1 : (a :: b :: ws).getD 1 0 = b := rfl
      obtain ⟨hle, hadd⟩ := addWord386 (x := s.sum) a b hsum
      rw [if_pos (by omega), hws, hmod, hmod2, hget0, hget1]
      obtain ⟨h1, h2, h3, h4, h5⟩ := ih (n := k)
        (s := { s with mlen := s.mlen - 2, sum := ADDCARRY386 (add32 s.sum (halves a b)),
                       c₀ := if s.odd then a else s.c₀, w := ws })
        (by simp only [hn]; omega) (by simp only; omega) (by omega) hle
      refine ⟨h1, h2, h3, h4, h5.trans ?_⟩
      have hv := (hadd.add (Same.refl 65535 (InCksum.value (ws.take (k - k % 2)))))
      have hpair : [a, b].length % 2 = 0 := by simp
      have hp := value_even (ws.take (k - k % 2)) hpair
      have hab : InCksum.value [a, b] = halves a b := by simp [value_cons, halves]
      rw [hab] at hp
      rw [Nat.add_assoc] at hv
      exact hv.trans ((Same.refl 65535 s.sum).add hp.symm)

/-- A byte that waits takes the first byte of the mbuf. -/
theorem Sums.Inv386.enter (h : s.Inv386 cs) (hd : m.data ≠ []) (hL : s.len = L) (h0 : 0 < L) :
    let t := clip (if s.mlen = -1 then { enter m s with sum := ADDCARRY386 (enter m s).sum } else enter m s)
    ∃ e ≤ min L m.data.length, t.w = m.data.drop e ∧ t.len = (L - min L m.data.length : Nat) ∧
      t.mlen = (min L m.data.length - e : Nat) ∧ t.sum ≤ 65535 ∧
      Same 65535 t.sum (InCksum.value (cs ++ m.data.take e)) ∧ (cs ++ m.data.take e).length % 2 = 0 := by
  obtain ⟨b, ds, hds⟩ := List.exists_cons_of_ne_nil hd
  have hvalue := h.value
  have hparity := h.parity
  by_cases hp : s.mlen = -1
  · rw [if_pos hp] at hvalue hparity
    have hb : (b :: ds).getD 0 0 = b := rfl
    obtain ⟨hle, hadd⟩ := addWord386 s.c₀ b h.bound
    have hsame : Same 65535 (s.sum + halves s.c₀ b) (InCksum.value (cs ++ [b])) := by
      have hv := (hvalue.add (Same.refl 65535 (256 * InCksum.value [b]))).trans (value_odd hparity).symm
      rw [value_cons, value_nil, Nat.mul_zero, Nat.add_zero, Nat.add_assoc] at hv
      exact hv
    refine ⟨1, by rw [hds]; simp only [List.length_cons]; omega, ?_⟩
    simp only [clip, InCksum.enter, if_pos hp, hds, hb, hL, List.length_cons, List.tail_cons]
    refine ⟨rfl, ?_, ?_, hle, hadd.trans hsame, ?_⟩
    · split_ifs <;> omega
    · split_ifs <;> omega
    · simp only [List.length_append, List.length_take, List.length_cons]
      omega
  · rw [if_neg hp] at hvalue hparity
    refine ⟨0, Nat.zero_le _, ?_⟩
    simp only [clip, InCksum.enter, if_neg hp, hL]
    refine ⟨rfl, ?_, ?_, h.bound, by simpa using hvalue, by simpa using hparity⟩
    · split_ifs <;> omega
    · split_ifs <;> omega

/-- A turn keeps the invariant. -/
theorem Sums.Inv386.mbuf (h : s.Inv386 cs) (hL : s.len = L) (h0 : 0 < L) :
    (cksumMbuf386 s m).Inv386 (cs ++ m.data.take L) ∧ (cksumMbuf386 s m).len = (L - min L m.data.length : Nat) := by
  unfold cksumMbuf386
  by_cases hd : m.data = []
  · rw [if_pos hd, hd]
    exact ⟨by simpa using h, by simpa using hL⟩
  · rw [if_neg hd]
    obtain ⟨e, he, hw, hlen, hmlen, hsum, hvalue, hpar⟩ := h.enter hd hL h0
    dsimp only
    generalize clip (if s.mlen = -1 then { InCksum.enter m s with sum := ADDCARRY386 (InCksum.enter m s).sum }
      else InCksum.enter m s) = t at hw hlen hmlen hsum hvalue
    generalize hn : min L m.data.length - e = n at hmlen
    have hroom : n ≤ t.w.length := by
      rw [hw, List.length_drop]
      omega
    have htake : cs ++ m.data.take L = cs ++ m.data.take e ++ t.w.take n := by
      rw [hw, List.append_assoc, ← List.take_add, ← hn, Nat.add_sub_cancel' he, List.take_eq_take_min]
    generalize cs ++ m.data.take e = done at hvalue hpar htake
    obtain ⟨h1, h2, h3, h4, h5⟩ := wordLoop386_spec t.mlen.toNat hmlen hroom (by omega) hsum
    have hv := (h5.trans (hvalue.add (Same.refl 65535 _))).trans (value_even _ hpar).symm
    rw [htake]
    generalize wordLoop386 t.mlen.toNat t = r at h1 h2 h3 h4 hv
    have hlength : (done ++ t.w.take n).length = done.length + n := by
      rw [List.length_append, List.length_take_of_le hroom]
    by_cases hodd : n % 2 = 1
    · have hm : r.mlen = -1 := by omega
      have hlast := take_last (w := t.w) (k := n - 1) (by omega)
      rw [Nat.sub_add_cancel (by omega)] at hlast
      rw [if_pos hm]
      refine ⟨⟨h4, ?_, ?_⟩, by rw [h3, hlen]⟩
      · rw [hodd] at hv h2
        have heven : (done ++ t.w.take (n - 1)).length % 2 = 0 := by
          rw [List.length_append, List.length_take_of_le (by omega)]
          omega
        have hv2 := (hv.add (Same.refl 65535 (InCksum.value [(t.w.drop (n - 1)).getD 0 0]))).trans (value_even _ heven).symm
        rw [List.append_assoc, ← hlast, value_cons, value_nil, Nat.mul_zero, Nat.add_zero] at hv2
        simp only [if_pos hm, h2]
        exact hv2
      · rw [hlength]
        simp only [if_pos hm]
        omega
    · have hz : n % 2 = 0 := by omega
      have hm : ¬r.mlen = -1 := by omega
      rw [if_neg hm]
      refine ⟨⟨h4, ?_, ?_⟩, by rw [h3, hlen]⟩
      · rw [hz, Nat.sub_zero] at hv
        rw [if_neg hm, Nat.add_zero]
        exact hv
      · rw [hlength, if_neg hm]
        omega

end Mbuf386

/-! ## The chain -/

/-- What a turn keeps the loop keeps, for `L` bytes more. -/
theorem cksumLoop_spec {body : Sums → Mbuf → Sums} {I : List Byte → Sums → Prop} {total : Nat}
    (hbody : ∀ cs s m L, I cs s → s.len = (L : Nat) → 0 < L → cs.length + L ≤ total →
      I (cs ++ m.data.take L) (body s m) ∧ (body s m).len = (L - min L m.data.length : Nat)) (ms : List Mbuf)
    {cs : List Byte} {s : Sums} (h : I cs s) (hL : s.len = L) (htotal : cs.length + L ≤ total) :
    I (cs ++ (chainBytes ms).take L) (cksumLoop body ms s) := by
  induction ms generalizing cs s L with
  | nil => simpa [chainBytes, cksumLoop] using h
  | cons m ms ih =>
    rw [cksumLoop]
    by_cases h0 : L = 0
    · rw [if_pos (by omega), h0, List.take_zero, List.append_nil]
      exact h
    · obtain ⟨hI, hlen⟩ := hbody cs s m L h hL (Nat.pos_of_ne_zero h0) htotal
      have hmin : L - min L m.data.length = L - m.data.length := by omega
      have htake : (chainBytes (m :: ms)).take L = m.data.take L ++ (chainBytes ms).take (L - min L m.data.length) := by
        rw [hmin, ← List.take_append]
        rfl
      have hle : (cs ++ m.data.take L).length + (L - min L m.data.length) ≤ total := by
        rw [List.length_append, List.length_take]
        omega
      rw [if_neg (by omega), htake, ← List.append_assoc]
      exact ih hI hlen hle

/-- A sum of 16 bits with the value of the bytes is their checksum. -/
theorem rfc1071_of_same {bs : List Byte} {x : Nat} (h : Same 65535 x (value bs)) (hx : x ≤ 65535) :
    (2 ^ 32 - 1 - x) % 65536 = rfc1071 bs := by
  have hlt : ∀ d ∈ bs.map (·.toNat), d < 256 := by
    intro d hd
    obtain ⟨b, -, rfl⟩ := List.mem_map.1 hd
    exact b.isLt
  have hsum := onesSum_le (words 256 (bs.map (·.toNat))) (words_le (m := 65535) rfl _ hlt)
  have hwords : Same 65535 (words 256 (bs.map (·.toNat))).sum (value bs) := wordSum_same bs
  have hsame := (onesSum_same 65535 _).trans hwords
  have he := (h.trans hsame.symm).unique hx hsum
  rw [rfc1071, ← he]
  omega

/-- Whatever the chain, both versions return the checksum of its first `len` bytes. -/
theorem in_cksum_rfc1071 (ms : List Mbuf) (len : Nat) (h : len ≤ 65535) :
    inCksum ms len = rfc1071 ((chainBytes ms).take len) ∧ inCksum386 ms len = rfc1071 ((chainBytes ms).take len) := by
  constructor
  · have hstart : (start len).Inv [] := ⟨rfl, by simp [start], by simpa [start] using Same.refl 65535 0, rfl⟩
    have hI := cksumLoop_spec (I := fun cs s => s.Inv cs) (fun cs s m L h hL h0 hcs => h.mbuf hL h0 hcs) ms hstart rfl
      (by simpa using h)
    rw [List.nil_append] at hI
    have hbound := hI.bound
    have hlen : ((chainBytes ms).take len).length ≤ 65535 := by
      rw [List.length_take]
      omega
    have hfinal : ∀ x < 2 ^ 32, Same 65535 x (value ((chainBytes ms).take len)) →
        (2 ^ 32 - 1 - REDUCE x) % 65536 = rfc1071 ((chainBytes ms).take len) := fun x hx hv =>
      rfc1071_of_same ((reduce_same x).trans hv) (reduce_le hx)
    have hvalue := hI.value
    simp only [inCksum]
    generalize cksumLoop cksumMbuf ms (start len) = s at hbound hvalue
    by_cases hm : s.mlen = -1
    · rw [if_pos hm] at hbound hvalue ⊢
      have hc := s.c₀.isLt
      have hz : halves s.c₀ 0 = s.c₀.toNat := by simp [halves]
      have hadd : add32 s.sum (halves s.c₀ 0) = s.sum + s.c₀.toNat := by
        rw [hz]
        exact Nat.mod_eq_of_lt (by omega)
      rw [hadd]
      exact hfinal _ (by omega) hvalue
    · rw [if_neg hm] at hbound hvalue ⊢
      exact hfinal _ (by omega) hvalue
  · have hstart : (start len).Inv386 [] := ⟨by simp [start], by simpa [start] using Same.refl 65535 0, rfl⟩
    have hI := cksumLoop_spec (I := fun cs s => s.Inv386 cs) (fun cs s m L h hL h0 _ => h.mbuf hL h0) ms hstart rfl
      (by simpa using h)
    rw [List.nil_append] at hI
    have hbound := hI.bound
    have hvalue := hI.value
    simp only [inCksum386]
    generalize cksumLoop cksumMbuf386 ms (start len) = s at hbound hvalue
    by_cases hm : s.mlen = -1
    · rw [if_pos hm] at hvalue ⊢
      obtain ⟨hle, hadd⟩ := addWord386 s.c₀ 0 hbound
      have hz : halves s.c₀ 0 = s.c₀.toNat := by simp [halves]
      rw [hz] at hadd hle ⊢
      exact rfc1071_of_same (hadd.trans hvalue) hle
    · rw [if_neg hm] at hvalue ⊢
      exact rfc1071_of_same hvalue hbound

theorem in_cksum_odd_pieces :
    inCksum [⟨true, [1, 2, 3]⟩, ⟨false, []⟩, ⟨false, [4, 5]⟩] 5 = rfc1071 [1, 2, 3, 4, 5] :=
  (in_cksum_rfc1071 [⟨true, [1, 2, 3]⟩, ⟨false, []⟩, ⟨false, [4, 5]⟩] 5 (by decide)).1

end BsdKernel.InCksum
