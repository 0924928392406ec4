import Mathlib.Data.Nat.Digits.Defs
import Mathlib.Data.Nat.ModEq
import Mathlib.Tactic
/-!
# One's-complement sums

Numbers up to `m`, where `m` and 0 are both zero and a carry out comes back in at the
other end. `Same m x y` says that `x` and `y` stand for the same value and that both or
neither are 0: it is kept by sums and by multiples, a number up to `m` is determined by
it, and a factor `m + 1` goes away. So a sum may be kept in more digits and reduced at
any time (`same_split`), and with two digits to a word the sum of the words is the
number that the digits write (`words_same`).
-/

namespace BsdKernel.Lib.Ones

/-- The same one's-complement value, and both zero or neither. -/
structure Same (m x y : Nat) : Prop where
  mod : x ≡ y [MOD m]
  zero : x = 0 ↔ y = 0

/-- A carry comes back in. -/
def carry (m x : Nat) : Nat := if x > m then x - m else x

/-- The sum with end-around carry. -/
def onesSum (m : Nat) (ws : List Nat) : Nat := ws.foldl (fun x w => carry m (x + w)) 0

/-- Digits of base `r`, two to a word and the low one first. -/
def words (r : Nat) : List Nat → List Nat
  | [] => []
  | [a] => [a]
  | a :: b :: ds => (a + r * b) :: words r ds

variable {m x y z x' y' : Nat}

/-! ## The same value -/

theorem Same.refl (m x : Nat) : Same m x x := ⟨rfl, Iff.rfl⟩

theorem Same.symm (h : Same m x y) : Same m y x := ⟨h.mod.symm, h.zero.symm⟩

theorem Same.trans (h : Same m x y) (h' : Same m y z) : Same m x z := ⟨h.mod.trans h'.mod, h.zero.trans h'.zero⟩

theorem Same.add (h : Same m x x') (h' : Same m y y') : Same m (x + y) (x' + y') := by
  refine ⟨h.mod.add h'.mod, ?_⟩
  rw [Nat.add_eq_zero_iff, Nat.add_eq_zero_iff, h.zero, h'.zero]

theorem Same.mul_left (h : Same m x y) (c : Nat) : Same m (c * x) (c * y) := by
  refine ⟨h.mod.mul_left c, ?_⟩
  rw [Nat.mul_eq_zero, Nat.mul_eq_zero, h.zero]

theorem Same.unique (h : Same m x y) (hx : x ≤ m) (hy : y ≤ m) : x = y := by
  obtain rfl | hpos := Nat.eq_zero_or_pos x
  · exact (h.zero.1 rfl).symm
  have hy0 : 0 < y := Nat.pos_of_ne_zero fun hz => hpos.ne' (h.zero.2 hz)
  have hmod : x % m = y % m := h.mod
  obtain hxm | rfl := Nat.lt_or_eq_of_le hx
  · obtain hym | rfl := Nat.lt_or_eq_of_le hy
    · rwa [Nat.mod_eq_of_lt hxm, Nat.mod_eq_of_lt hym] at hmod
    · rw [Nat.mod_eq_of_lt hxm, Nat.mod_self] at hmod
      omega
  · obtain hym | rfl := Nat.lt_or_eq_of_le hy
    · rw [Nat.mod_self, Nat.mod_eq_of_lt hym] at hmod
      omega
    · rfl

theorem same_base (m x : Nat) : Same m ((m + 1) * x) x := by
  refine ⟨?_, by simp⟩
  have h : m + 1 ≡ 1 [MOD m] := by simp [Nat.ModEq]
  simpa using h.mul_right x

theorem same_split (m x : Nat) : Same m (x % (m + 1) + x / (m + 1)) x := by
  have h := (Same.refl m (x % (m + 1))).add (same_base m (x / (m + 1)))
  rw [Nat.mod_add_div] at h
  exact h.symm

theorem same_carry (m x : Nat) : Same m (carry m x) x := by
  unfold carry
  split_ifs with h
  · refine ⟨?_, by omega⟩
    have hm : x - m + m ≡ x - m [MOD m] := by simp [Nat.ModEq]
    rw [Nat.sub_add_cancel (Nat.le_of_lt h)] at hm
    exact hm.symm
  · exact Same.refl m x

theorem carry_le (h : x ≤ m + m) : carry m x ≤ m := by
  unfold carry
  split_ifs <;> omega

/-! ## Sums of words -/

theorem onesSum_from (m x : Nat) (ws : List Nat) : Same m (ws.foldl (fun x w => carry m (x + w)) x) (x + ws.sum) := by
  induction ws generalizing x with
  | nil => exact Same.refl m x
  | cons w ws ih =>
    have h := (same_carry m (x + w)).add (Same.refl m ws.sum)
    rw [List.sum_cons, ← Nat.add_assoc]
    exact (ih (carry m (x + w))).trans h

theorem onesSum_same (m : Nat) (ws : List Nat) : Same m (onesSum m ws) ws.sum := by
  simpa [onesSum] using onesSum_from m 0 ws

theorem onesSum_le (ws : List Nat) (h : ∀ w ∈ ws, w ≤ m) : onesSum m ws ≤ m := by
  have hfrom : ∀ x ≤ m, ws.foldl (fun x w => carry m (x + w)) x ≤ m := by
    induction ws with
    | nil => exact fun x hx => hx
    | cons w ws ih =>
      intro x hx
      have hw := h w (List.mem_cons_self ..)
      exact ih (fun v hv => h v (List.mem_cons_of_mem _ hv)) _ (carry_le (by omega))
  exact hfrom 0 (Nat.zero_le m)

/-! ## Two digits to a word -/

section Words
variable {r : Nat} (hm : m + 1 = r * r)
include hm

theorem same_pow_even (k x : Nat) : Same m (r ^ (2 * k) * x) x := by
  induction k with
  | zero => simpa using Same.refl m x
  | succ k ih =>
    have h := same_base m (r ^ (2 * k) * x)
    have he : r ^ (2 * (k + 1)) * x = (m + 1) * (r ^ (2 * k) * x) := by
      rw [hm]
      ring
    rw [he]
    exact h.trans ih

theorem same_pow_odd (k x : Nat) : Same m (r ^ (2 * k + 1) * x) (r * x) := by
  have h := (same_pow_even hm k x).mul_left r
  have he : r ^ (2 * k + 1) * x = r * (r ^ (2 * k) * x) := by ring
  rwa [he]

theorem words_same (ds : List Nat) : Same m (words r ds).sum (Nat.ofDigits r ds) := by
  induction ds using words.induct with
  | case1 => exact Same.refl m 0
  | case2 a => simpa [words, Nat.ofDigits_cons] using Same.refl m a
  | case3 a b ds ih =>
    have he : Nat.ofDigits r (a :: b :: ds) = a + r * b + (m + 1) * Nat.ofDigits r ds := by
      rw [Nat.ofDigits_cons, Nat.ofDigits_cons, hm]
      ring
    rw [words, List.sum_cons, he]
    exact (Same.refl m (a + r * b)).add (ih.trans (same_base m _).symm)

theorem words_le (ds : List Nat) (h : ∀ d ∈ ds, d < r) : ∀ w ∈ words r ds, w ≤ m := by
  have hword : ∀ a b, a < r → b < r → a + r * b ≤ m := by
    intro a b ha hb
    have : r * (b + 1) ≤ r * r := Nat.mul_le_mul_left r hb
    rw [Nat.mul_add, Nat.mul_one] at this
    omega
  induction ds using words.induct with
  | case1 => simp [words]
  | case2 a =>
    have ha := h a (by simp)
    have := hword a 0 ha (by omega)
    simpa [words] using this
  | case3 a b ds ih =>
    intro w hw
    obtain rfl | hw := List.mem_cons.1 hw
    · exact hword a b (h a (by simp)) (h b (by simp))
    · exact ih (fun d hd => h d (by simp [hd])) w hw

end Words

end BsdKernel.Lib.Ones
