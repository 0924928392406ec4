import BsdKernel.Nfs.Compress
import Mathlib.Tactic.IntervalCases
/-!
# The code of compressed RPCs

What the two loops write for a string of bytes, without chains: `packed` and `unpacked`. `unpacked_packed`
says that one undoes the other, trailing zeros included, unless a run of 51, 85, 119, … zeros is followed by the byte
`0xef`. There the code for 16 zeros is written twice in a row, which stands for a byte.
-/

namespace BsdKernel.NfsCompress

open List (replicate)

/-! ## Codes -/

/-- The code for `a` zeros. -/
def code (a : Nat) : UInt8 := (NFSCRLE a).toUInt8

/-- A byte that is written twice, or a code. -/
def isRl (c : UInt8) : Prop := c &&& NFSCRL = NFSCRL

instance (c : UInt8) : Decidable (isRl c) := inferInstanceAs (Decidable (_ = _))

/-- The zeros a code stands for. -/
def count (c : UInt8) : Nat := (c &&& 0xf).toNat + 2

section Codes
variable {a b : Nat} {x : UInt8}

theorem isRl_code : ∀ a ≤ 17, isRl (code a) := by decide

theorem count_code : ∀ a ≤ 17, 2 ≤ a → count (code a) = a := by decide

theorem code_ne_zero (ha : a ≤ 17) : code a ≠ 0 := fun h => by
  have := isRl_code a ha
  rw [h] at this
  exact absurd this (by decide)

theorem code_inj (ha : a ≤ 17) (hb : b ≤ 17) (ha2 : 2 ≤ a) (hb2 : 2 ≤ b) (h : code a = code b) : a = b := by
  rw [← count_code a ha ha2, h, count_code b hb hb2]

theorem toUInt32_code : ∀ a ≤ 17, 2 ≤ a → (code a).toUInt32 = NFSCRLE a := by decide

theorem rle_eq_iff (ha : a ≤ 17) (ha2 : 2 ≤ a) : NFSCRLE a = x.toUInt32 ↔ code a = x := by
  rw [← toUInt32_code a ha ha2]
  constructor
  · intro h
    have hback := congrArg UInt32.toUInt8 h
    simpa using hback
  · rintro rfl
    rfl

end Codes

/-! ## Reading the code -/

/-- What the loop of `nfs_uncompress` writes for the bytes from `cp` on. -/
def unpacked : List UInt8 → List UInt8
  | [] => []
  | [c] => if isRl c then replicate (count c) 0 else [c]
  | c :: d :: s =>
    if isRl c then
      if c = d then c :: unpacked s else replicate (count c) 0 ++ unpacked (d :: s)
    else c :: unpacked (d :: s)

section Unpacked
variable {c : UInt8} {s : List UInt8} {a : Nat}

theorem unpacked_plain (hc : ¬isRl c) : unpacked (c :: s) = c :: unpacked s := by
  cases s with
  | nil => simp only [unpacked, if_neg hc]
  | cons d s => rw [unpacked, if_neg hc]

theorem unpacked_twice (hc : isRl c) : unpacked (c :: c :: s) = c :: unpacked s := by
  rw [unpacked, if_pos hc, if_pos rfl]

theorem unpacked_count (hc : isRl c) (hs : s.head? ≠ some c) : unpacked (c :: s) = replicate (count c) 0 ++ unpacked s := by
  cases s with
  | nil => simp only [unpacked, if_pos hc, List.append_nil]
  | cons d s =>
    have hd : c ≠ d := fun h => hs (by rw [h]; rfl)
    rw [unpacked, if_pos hc, if_neg hd]

theorem unpacked_code (ha : a ≤ 17) (ha2 : 2 ≤ a) (hs : s.head? ≠ some (code a)) :
    unpacked (code a :: s) = replicate a 0 ++ unpacked s := by
  rw [unpacked_count (isRl_code a ha) hs, count_code a ha ha2]

theorem unpacked_zero (s : List UInt8) : unpacked (0 :: s) = 0 :: unpacked s := unpacked_plain (by decide)

theorem unpacked_zeros (n : Nat) (s : List UInt8) : unpacked (replicate n 0 ++ s) = replicate n 0 ++ unpacked s := by
  induction n with
  | zero => rfl
  | succ n ih => rw [List.replicate_succ, List.cons_append, unpacked_zero, ih, List.cons_append]

end Unpacked

/-! ## Writing it -/

/-- What `putZeros` writes, and the new `rlelast`. -/
def flushed (i rlelast : Nat) (next : UInt8) : List UInt8 × Nat :=
  if i < 2 then ([0], rlelast)
  else
    let (pre, i) := if rlelast = i then ([0], i - 1) else ([], i)
    if NFSCRLE i = next.toUInt32 then (pre ++ [if i - 1 < 2 then 0 else code (i - 1), 0], 0)
    else (pre ++ [code i], i)

/-- A byte other than 0. -/
def literal (c : UInt8) : List UInt8 := if isRl c then [c, c] else [c]

/-- The byte the loop takes for the next one. -/
def nextOf (s : List UInt8) : UInt8 := s.head?.getD 1

/-- What the loop of `nfs_compress` writes for the bytes from `nextch` on. -/
def packed : Nat → Nat → List UInt8 → List UInt8
  | _, _, [] => []
  | i, rlelast, ch :: s =>
    if ch = 0 then
      if i + 1 = NFSC_MAX ∨ nextOf s ≠ 0 then
        (flushed (i + 1) rlelast (nextOf s)).1 ++ packed 0 (flushed (i + 1) rlelast (nextOf s)).2 s
      else packed (i + 1) rlelast s
    else literal ch ++ packed 0 0 s

/-! ## A run of zeros -/

/-- What is written for `k` zeros before `next`, in parts of 17. -/
def run (rlelast k : Nat) (next : UInt8) : List UInt8 :=
  if 17 < k then (flushed 17 rlelast 0).1 ++ run (flushed 17 rlelast 0).2 (k - 17) next else (flushed k rlelast next).1
termination_by k

/-- The values of `rlelast` within a run: none, or the code of the part before. -/
def Last (rlelast : Nat) : Prop := rlelast = 0 ∨ rlelast = 16 ∨ rlelast = 17

section Run
variable {k rl i z : Nat} {next c : UInt8} {s rest : List UInt8}

theorem unpacked_literal (c : UInt8) (s : List UInt8) : unpacked (literal c ++ s) = c :: unpacked s := by
  unfold literal
  split
  · rename_i hc
    exact unpacked_twice hc
  · rename_i hc
    exact unpacked_plain hc

theorem head_literal (c : UInt8) (s : List UInt8) : (literal c ++ s).head? = some c := by
  unfold literal
  split <;> rfl

theorem flushed_one (rl : Nat) (next : UInt8) : flushed 1 rl next = ([0], rl) := if_pos (by decide)

theorem flushed_same (hk : 16 ≤ k) (hk17 : k ≤ 17) :
    flushed k k next = if code (k - 1) = next then ([0, code (k - 2), 0], 0) else ([0, code (k - 1)], k - 1) := by
  unfold flushed
  rw [if_neg (by omega), if_pos rfl]
  simp only [rle_eq_iff (show k - 1 ≤ 17 by omega) (show 2 ≤ k - 1 by omega), if_neg (show ¬k - 1 - 1 < 2 by omega)]
  rfl

theorem flushed_other (hk : 2 ≤ k) (hk17 : k ≤ 17) (hne : rl ≠ k) :
    flushed k rl next = if code k = next then ([if k - 1 < 2 then 0 else code (k - 1), 0], 0) else ([code k], k) := by
  unfold flushed
  rw [if_neg (by omega), if_neg hne]
  simp only [rle_eq_iff hk17 hk]
  rfl

theorem zeros_cons (n : Nat) (t : List UInt8) : 0 :: (replicate n 0 ++ t) = replicate (n + 1) 0 ++ t := rfl

theorem zeros_snoc (n : Nat) (t : List UInt8) : replicate n 0 ++ 0 :: t = replicate (n + 1) (0 : UInt8) ++ t := by
  rw [List.replicate_succ', List.append_assoc, List.singleton_append]

/-- A part is read back, if its code is not read as one half of a byte. -/
theorem unpacked_flushed (hk : 1 ≤ k) (hk17 : k ≤ 17) (hrl : Last rl)
    (hs : 2 ≤ k → (flushed k rl next).2 ≠ 0 → s.head? ≠ some (code (flushed k rl next).2)) :
    unpacked ((flushed k rl next).1 ++ s) = replicate k 0 ++ unpacked s := by
  rcases Nat.eq_or_lt_of_le hk with rfl | hk2
  · rw [flushed_one]
    exact unpacked_zero s
  · by_cases hne : rl = k
    · subst hne
      have h16 : 16 ≤ rl := by rcases hrl with h | h | h <;> omega
      rw [flushed_same h16 hk17] at hs ⊢
      split
      · rw [List.cons_append, unpacked_zero, List.cons_append, unpacked_code (by omega) (by omega), List.cons_append,
          unpacked_zero, List.nil_append, zeros_snoc, zeros_cons, show rl - 2 + 1 + 1 = rl by omega]
        exact fun h => code_ne_zero (a := rl - 2) (by omega) (Option.some.inj h).symm
      · rename_i hnext
        rw [if_neg hnext] at hs
        rw [List.cons_append, unpacked_zero, List.cons_append, List.nil_append, unpacked_code (by omega) (by omega)
            (hs hk2 (by show rl - 1 ≠ 0; omega)),
          zeros_cons, show rl - 1 + 1 = rl by omega]
    · rw [flushed_other hk2 hk17 hne] at hs ⊢
      split
      · split
        · rw [List.cons_append, unpacked_zero, List.cons_append, unpacked_zero, List.nil_append, show k = 2 by omega]
          rfl
        · rw [List.cons_append, unpacked_code (by omega) (by omega), List.cons_append, unpacked_zero, List.nil_append, zeros_snoc,
            show k - 1 + 1 = k by omega]
          exact fun h => code_ne_zero (a := k - 1) (by omega) (Option.some.inj h).symm
      · rename_i hnext
        rw [if_neg hnext] at hs
        exact unpacked_code hk17 hk2 (hs hk2 (by show k ≠ 0; omega))

/-- A part does not begin with the code before it, unless it is a last one of 17 before the byte `0xef`, after a code for 16. -/
theorem head_flushed (hk : 1 ≤ k) (hk17 : k ≤ 17) (hrl : rl = 16 ∨ rl = 17) (hok : ¬(rl = 16 ∧ k = 17 ∧ next = 0xef)) (s : List UInt8) :
    ((flushed k rl next).1 ++ s).head? ≠ some (code rl) := by
  have hzero : some 0 ≠ some (code rl) := fun h => code_ne_zero (a := rl) (by omega) (Option.some.inj h).symm
  rcases Nat.eq_or_lt_of_le hk with rfl | hk2
  · rw [flushed_one]
    exact hzero
  · by_cases hne : rl = k
    · subst hne
      rw [flushed_same (by omega) hk17]
      split <;> exact hzero
    · rw [flushed_other hk2 hk17 hne]
      split
      · rename_i hnext
        split
        · exact hzero
        · intro h
          have heq := code_inj (by omega) (by omega) (by omega) (by omega) (Option.some.inj h)
          exact hok ⟨by omega, by omega, by rw [← hnext, show k = 17 by omega]; rfl⟩
      · intro h
        exact hne (code_inj hk17 (by omega) hk2 (by omega) (Option.some.inj h)).symm

theorem last_flushed (rl : Nat) : (flushed 17 rl 0).2 = if rl = 17 then 16 else 17 := by
  have hcode : ∀ a ≤ 17, code a ≠ 0 := fun a ha => code_ne_zero ha
  by_cases h : rl = 17
  · rw [h, flushed_same (by decide) (by decide), if_neg (hcode _ (by decide)), if_pos rfl]
  · rw [flushed_other (by decide) (by decide) h, if_neg (hcode _ (by decide)), if_neg h]

theorem flushed_next (hk : 2 ≤ k) (hk17 : k ≤ 17) (hrl : Last rl) (hne : (flushed k rl next).2 ≠ 0) :
    (flushed k rl next).2 ≤ 17 ∧ code (flushed k rl next).2 ≠ next := by
  by_cases h : rl = k
  · subst h
    rw [flushed_same (by rcases hrl with h | h | h <;> omega) hk17] at hne ⊢
    split at hne
    · exact absurd rfl hne
    · rename_i hnext
      rw [if_neg hnext]
      exact ⟨by show rl - 1 ≤ 17; omega, hnext⟩
  · rw [flushed_other hk hk17 h] at hne ⊢
    split at hne
    · exact absurd rfl hne
    · rename_i hnext
      rw [if_neg hnext]
      exact ⟨hk17, hnext⟩

theorem run_more (hk : 17 < k) : run rl k next = (flushed 17 rl 0).1 ++ run (flushed 17 rl 0).2 (k - 17) next := by
  rw [run, if_pos hk]

theorem run_last (hk : k ≤ 17) : run rl k next = (flushed k rl next).1 := by
  rw [run, if_neg (by omega)]

theorem head_run (hk : 1 ≤ k) (hrl : rl = 16 ∨ rl = 17) (hok : ¬(rl = 16 ∧ k = 17 ∧ next = 0xef)) (s : List UInt8) :
    (run rl k next ++ s).head? ≠ some (code rl) := by
  by_cases hmore : 17 < k
  · rw [run_more hmore, List.append_assoc]
    exact head_flushed (by decide) (by decide) hrl (fun h => absurd h.2.2 (by decide)) _
  · rw [run_last (by omega)]
    exact head_flushed hk (by omega) hrl hok s

/-- The run ends with two codes for 16. -/
def Slips (rl k : Nat) (next : UInt8) : Prop := next = 0xef ∧ ∃ j, k = 17 * (2 * j + if rl = 17 then 2 else 3)

theorem slips_more (hk : 17 < k) : Slips rl k next ↔
    (rl = 17 ∧ k = 34 ∧ next = 0xef) ∨ Slips (if rl = 17 then 16 else 17) (k - 17) next := by
  unfold Slips
  by_cases h : rl = 17
  · subst h
    constructor
    · rintro ⟨hnext, j, hj⟩
      rcases Nat.eq_zero_or_pos j with rfl | hpos
      · exact .inl ⟨rfl, by simpa using hj, hnext⟩
      · refine .inr ⟨hnext, j - 1, ?_⟩
        simp only [if_pos] at hj ⊢
        rw [if_neg (by decide)]
        omega
    · rintro (⟨-, hk34, hnext⟩ | ⟨hnext, j, hj⟩)
      · exact ⟨hnext, 0, by simpa using hk34⟩
      · refine ⟨hnext, j + 1, ?_⟩
        rw [if_pos rfl, if_neg (by decide)] at hj
        rw [if_pos rfl]
        omega
  · simp only [if_neg h, if_pos]
    constructor
    · rintro ⟨hnext, j, hj⟩
      exact .inr ⟨hnext, j, by omega⟩
    · rintro (⟨hrl, -⟩ | ⟨hnext, j, hj⟩)
      · exact absurd hrl h
      · exact ⟨hnext, j, by omega⟩

theorem last_more (rl : Nat) : Last (if rl = 17 then 16 else 17) ∧
    ((if rl = 17 then 16 else 17) = 16 ∨ (if rl = 17 then 16 else 17) = 17) := by
  unfold Last
  split <;> simp

theorem unpacked_part (hk : 17 < k) (hrl : Last rl) (hok : ¬(rl = 17 ∧ k = 34 ∧ next = 0xef)) (s : List UInt8) :
    unpacked (run rl k next ++ s) = replicate 17 0 ++ unpacked (run (if rl = 17 then 16 else 17) (k - 17) next ++ s) := by
  rw [run_more hk, List.append_assoc, ← last_flushed rl]
  refine unpacked_flushed (by decide) (by decide) hrl fun _ _ => ?_
  rw [last_flushed rl]
  refine head_run (by omega) (last_more rl).2 (fun hbad => hok ⟨?_, by omega, hbad.2.2⟩) s
  by_contra h
  rw [if_neg h] at hbad
  exact absurd hbad.1 (by decide)

theorem unpacked_run (k : Nat) : ∀ rl, 1 ≤ k → Last rl → ¬Slips rl k next → (∀ x, s.head? = some x → x = next ∨ x = 0) →
    unpacked (run rl k next ++ s) = replicate k 0 ++ unpacked s := by
  induction k using Nat.strong_induction_on with
  | _ k ih =>
    intro rl hk hrl hok hs
    by_cases hmore : 17 < k
    · rw [slips_more hmore, not_or] at hok
      rw [unpacked_part hmore hrl hok.1, ih (k - 17) (by omega) _ (by omega) (last_more rl).1 hok.2 hs, ← List.append_assoc,
        List.replicate_append_replicate, show 17 + (k - 17) = k by omega]
    · rw [run_last (by omega)]
      refine unpacked_flushed hk (by omega) hrl fun hk2 hne hhead => ?_
      obtain ⟨hle, hnext⟩ := flushed_next hk2 (by omega) hrl hne
      rcases hs _ hhead with h | h
      · exact hnext h
      · exact code_ne_zero hle h

/-- A run that ends with two codes for 16 is read as one with a byte `0xee` in it. -/
theorem slipped_run (k : Nat) : ∀ rl, Last rl → Slips rl k next →
    ∃ j t, j < k ∧ unpacked (run rl k next ++ s) = replicate j 0 ++ 0xee :: t := by
  induction k using Nat.strong_induction_on with
  | _ k ih =>
    intro rl hrl hbad
    have hmore : 17 < k := by
      obtain ⟨-, j, hj⟩ := hbad
      split at hj <;> omega
    by_cases hhere : rl = 17 ∧ k = 34 ∧ next = 0xef
    · obtain ⟨rfl, rfl, rfl⟩ := hhere
      have hrun : run 17 34 0xef = [0, 0xee, 0xee, 0] := by
        rw [run_more (by decide), run_last (by decide)]
        decide
      refine ⟨1, 0 :: unpacked s, by decide, ?_⟩
      rw [hrun]
      show unpacked (0 :: 0xee :: 0xee :: 0 :: s) = _
      rw [unpacked_zero, unpacked_twice (by decide), unpacked_zero]
      rfl
    · obtain ⟨j, t, hj, heq⟩ := ih (k - 17) (by omega) _ (last_more rl).1 (((slips_more hmore).1 hbad).resolve_left hhere)
      refine ⟨17 + j, t, by omega, ?_⟩
      rw [unpacked_part hmore hrl hhere, heq, ← List.append_assoc, List.replicate_append_replicate]

end Run

/-! ## All bytes -/

/-- A run of 17 zeros, an odd number of times and three times at least, is followed by the byte `0xef`. -/
def Slipping (bytes : List UInt8) : Prop :=
  ∃ before j after, bytes = before ++ (replicate (17 * (2 * j + 3)) 0 ++ 0xef :: after) ∧ before.getLast? ≠ some 0

section Packed
variable {i rl z : Nat} {c : UInt8} {s rest bytes : List UInt8}

/-- Behind a run it does not matter which code was last. -/
theorem packed_behind (rl : Nat) (h : rest.head? ≠ some 0) : packed 0 rl rest = packed 0 0 rest := by
  cases rest with
  | nil => rfl
  | cons c s =>
    have hc : c ≠ 0 := fun hc => h (by rw [hc]; rfl)
    rw [packed, packed, if_neg hc, if_neg hc]

theorem nextOf_ne_zero (h : rest.head? ≠ some 0) : nextOf rest ≠ 0 := by
  unfold nextOf
  cases rest with
  | nil => decide
  | cons c s => exact fun hc => h (congrArg some hc)

theorem packed_zeros (hrest : rest.head? ≠ some 0) (z : Nat) : ∀ i rl, i < 17 →
    packed i rl (replicate (z + 1) 0 ++ rest) = run rl (i + z + 1) (nextOf rest) ++ packed 0 0 rest := by
  induction z with
  | zero =>
    intro i rl hi
    show packed i rl (0 :: rest) = _
    rw [packed, if_pos rfl, if_pos (.inr (nextOf_ne_zero hrest)), packed_behind _ hrest, run_last (by omega)]
  | succ z ih =>
    intro i rl hi
    show packed i rl (0 :: (replicate (z + 1) 0 ++ rest)) = _
    have hnext : nextOf (replicate (z + 1) 0 ++ rest) = 0 := rfl
    rw [packed, if_pos rfl, hnext]
    by_cases hmax : i + 1 = NFSC_MAX
    · have h17 : i = 16 := Nat.succ.inj hmax
      subst h17
      rw [if_pos (.inl rfl), ih 0 _ (by decide), run_more (show 17 < 16 + (z + 1) + 1 by omega), List.append_assoc,
        show 16 + (z + 1) + 1 - 17 = 0 + z + 1 by omega]
    · have hlt : i + 1 < 17 := by
        have : i + 1 ≠ 17 := hmax
        omega
      rw [if_neg (by simpa using hmax), ih (i + 1) rl hlt, show i + 1 + z + 1 = i + (z + 1) + 1 by omega]

theorem split_zeros (bytes : List UInt8) : ∃ z rest, bytes = replicate z 0 ++ rest ∧ rest.head? ≠ some 0 := by
  induction bytes with
  | nil => exact ⟨0, [], rfl, by decide⟩
  | cons c s ih =>
    by_cases hc : c = 0
    · obtain ⟨z, rest, rfl, hrest⟩ := ih
      exact ⟨z + 1, rest, by rw [hc]; rfl, hrest⟩
    · exact ⟨0, c :: s, rfl, fun h => hc (Option.some.inj h)⟩

theorem zeros_inj {x y : UInt8} (hx : x ≠ 0) (hy : y ≠ 0) {t : List UInt8} (a : Nat) : ∀ b,
    replicate a 0 ++ x :: s = replicate b 0 ++ y :: t → a = b ∧ x = y := by
  induction a with
  | zero =>
    intro b h
    cases b with
    | zero => exact ⟨rfl, (List.cons.inj h).1⟩
    | succ b => exact absurd (List.cons.inj h).1 hx
  | succ a ih =>
    intro b h
    cases b with
    | zero => exact absurd (List.cons.inj h).1.symm hy
    | succ b =>
      obtain ⟨hab, hxy⟩ := ih b (List.cons.inj h).2
      exact ⟨congrArg (· + 1) hab, hxy⟩

theorem last_behind (hc : c ≠ 0) (z : Nat) (l : List UInt8) :
    (replicate z 0 ++ c :: l).getLast? ≠ some 0 ↔ l.getLast? ≠ some 0 := by
  rw [List.getLast?_append, List.getLast?_cons, Option.some_or]
  cases l.getLast? with
  | none => exact iff_of_true (fun h => hc (Option.some.inj h)) (by decide)
  | some x => rfl

theorem last_zeros {z : Nat} (h : (replicate z (0 : UInt8)).getLast? ≠ some 0) : z = 0 := by
  cases z with
  | zero => rfl
  | succ z => exact absurd (by rw [List.replicate_succ', List.getLast?_concat]) h

/-- A run is a run of zeros up to a byte that is not. -/
theorem slipping_split (hc : c ≠ 0) :
    Slipping (replicate z 0 ++ c :: rest) ↔ (c = 0xef ∧ ∃ j, z = 17 * (2 * j + 3)) ∨ Slipping rest := by
  constructor
  · rintro ⟨before, j, after, heq, hlast⟩
    rcases List.append_eq_append_iff.1 heq with ⟨mid, hbefore, hmid⟩ | ⟨mid, hbefore, hmid⟩
    · cases mid with
      | nil =>
        rw [hbefore, List.append_nil] at hlast
        exact absurd (List.cons.inj hmid).1 hc
      | cons x mid =>
        obtain ⟨rfl, hrest⟩ := List.cons.inj hmid
        rw [hbefore, last_behind hc] at hlast
        exact .inr ⟨mid, j, after, hrest, hlast⟩
    · -- The run found is the one at the beginning.
      obtain ⟨hlen, hzeros, hmids⟩ := List.replicate_eq_append_iff.1 hbefore
      rw [hzeros] at hlast
      have hnil := last_zeros hlast
      rw [hmids] at hmid
      obtain ⟨hz, hef⟩ := zeros_inj (by decide) hc _ _ hmid
      exact .inl ⟨hef.symm, j, by omega⟩
  · rintro (⟨rfl, j, rfl⟩ | ⟨before, j, after, rfl, hlast⟩)
    · exact ⟨[], j, rest, rfl, by decide⟩
    · exact ⟨replicate z 0 ++ c :: before, j, after, by simp, (last_behind hc z before).2 hlast⟩

theorem not_slipping_zeros (z : Nat) : ¬Slipping (replicate z 0) := by
  rintro ⟨before, j, after, heq, -⟩
  have hmem : (0xef : UInt8) ∈ replicate z (0 : UInt8) := by
    rw [heq]
    simp
  exact absurd (List.eq_of_mem_replicate hmem) (by decide)

theorem packed_split (hrest : rest.head? ≠ some 0) (z : Nat) :
    packed 0 0 (replicate z 0 ++ rest) = (if z = 0 then [] else run 0 z (nextOf rest)) ++ packed 0 0 rest := by
  cases z with
  | zero => rfl
  | succ z =>
    rw [packed_zeros hrest z 0 0 (by decide), if_neg (by omega), Nat.zero_add]

theorem packed_literal (hc : c ≠ 0) (s : List UInt8) : packed 0 0 (c :: s) = literal c ++ packed 0 0 s := by
  rw [packed, if_neg hc]

theorem head_behind (hrest : rest.head? ≠ some 0) (n : Nat) {x : UInt8} (hx : (packed 0 0 rest ++ replicate n 0).head? = some x) :
    x = nextOf rest ∨ x = 0 := by
  cases rest with
  | nil =>
    cases n with
    | zero => cases hx
    | succ n => exact .inr (Option.some.inj hx).symm
  | cons c s =>
    have hc : c ≠ 0 := fun hc => hrest (by rw [hc]; rfl)
    rw [packed_literal hc, List.append_assoc, head_literal] at hx
    exact .inl (Option.some.inj hx).symm

theorem unpacked_split (hrest : rest.head? ≠ some 0) (z n : Nat) (hok : ¬Slips 0 z (nextOf rest)) :
    unpacked (packed 0 0 (replicate z 0 ++ rest) ++ replicate n 0) =
      replicate z 0 ++ unpacked (packed 0 0 rest ++ replicate n 0) := by
  rw [packed_split hrest, List.append_assoc]
  split
  · rename_i hz
    rw [hz]
    rfl
  · exact unpacked_run z 0 (by omega) (.inl rfl) hok fun x hx => head_behind hrest n hx

theorem slips_iff (hc : c ≠ 0) : Slipping (replicate z 0 ++ c :: rest) ↔ Slips 0 z (nextOf (c :: rest)) ∨ Slipping rest := by
  rw [slipping_split hc]
  rfl

theorem not_slips_end (z : Nat) : ¬Slips 0 z (nextOf []) := fun h => absurd h.1 (by decide)

/-- What is written for bytes without such a run is read back, and the zeros behind it as well. -/
theorem unpacked_packed (n : Nat) (bytes : List UInt8) (h : ¬Slipping bytes) :
    unpacked (packed 0 0 bytes ++ replicate n 0) = bytes ++ replicate n 0 := by
  induction hlen : bytes.length using Nat.strong_induction_on generalizing bytes with
  | _ len ih =>
    obtain ⟨z, rest, rfl, hrest⟩ := split_zeros bytes
    cases rest with
    | nil =>
      rw [unpacked_split hrest z n (not_slips_end z), List.append_nil, List.append_cancel_left_eq]
      have hzeros := unpacked_zeros n []
      simpa [packed, unpacked] using hzeros
    | cons c rest =>
      have hc : c ≠ 0 := fun hc => hrest (by rw [hc]; rfl)
      rw [slips_iff hc, not_or] at h
      have hshort : rest.length < len := by
        rw [← hlen, List.length_append, List.length_cons]
        omega
      rw [unpacked_split hrest z n h.1, packed_literal hc, List.append_assoc, unpacked_literal, ih _ hshort rest h.2 rfl,
        List.append_assoc]
      rfl

/-- With such a run a byte `0xee` is read where there was a zero. -/
theorem unpacked_slipped (n : Nat) (bytes : List UInt8) (h : Slipping bytes) :
    ∃ j : Nat, bytes[j]? = some 0 ∧ (unpacked (packed 0 0 bytes ++ replicate n 0))[j]? = some 0xee := by
  induction hlen : bytes.length using Nat.strong_induction_on generalizing bytes with
  | _ len ih =>
    obtain ⟨z, rest, rfl, hrest⟩ := split_zeros bytes
    cases rest with
    | nil => exact absurd h (by rw [List.append_nil]; exact not_slipping_zeros z)
    | cons c rest =>
      have hc : c ≠ 0 := fun hc => hrest (by rw [hc]; rfl)
      by_cases hhere : Slips 0 z (nextOf (c :: rest))
      · obtain ⟨j, t, hj, heq⟩ := slipped_run (s := packed 0 0 (c :: rest) ++ replicate n 0) z 0 (.inl rfl) hhere
        refine ⟨j, ?_, ?_⟩
        · rw [List.getElem?_append_left (by rw [List.length_replicate]; exact hj), List.getElem?_replicate, if_pos hj]
        · rw [packed_split hrest, if_neg (by omega), List.append_assoc, heq,
            List.getElem?_append_right (by rw [List.length_replicate]), List.length_replicate, Nat.sub_self]
          rfl
      · have hlater := ((slips_iff hc).1 h).resolve_left hhere
        have hshort : rest.length < len := by
          rw [← hlen, List.length_append, List.length_cons]
          omega
        obtain ⟨j, hj, heq⟩ := ih _ hshort rest hlater rfl
        refine ⟨z + (j + 1), ?_, ?_⟩
        · rw [List.getElem?_append_right (by rw [List.length_replicate]; omega), List.length_replicate, Nat.add_sub_cancel_left]
          exact hj
        · rw [unpacked_split hrest z n hhere, packed_literal hc, List.append_assoc, unpacked_literal,
            List.getElem?_append_right (by rw [List.length_replicate]; omega), List.length_replicate, Nat.add_sub_cancel_left]
          exact heq

end Packed

end BsdKernel.NfsCompress
