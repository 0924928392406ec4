import Mathlib.Tactic
/-!
# 32-bit signed numbers

`wrap32 x` is the 32-bit two's complement number congruent to `x`, the value an
`int` or a `long` holds after an operation whose result is `x`. It is `x` when
`x` fits (`wrap32_of_fits`) and at least `2 ^ 31` away from it otherwise
(`le_abs_wrap32_sub`). `truncTo d x` is `x` rounded towards zero to a multiple
of `d`, which is what the division of C leaves.
-/

namespace BsdKernel.Lib

variable {x d : Int}

/-- `x` reduced to 32 bits, two's complement. -/
def wrap32 (x : Int) : Int := (x + 2 ^ 31) % 2 ^ 32 - 2 ^ 31

/-- `x` is a 32-bit signed number. -/
def Fits32 (x : Int) : Prop := -2 ^ 31 ≤ x ∧ x < 2 ^ 31

instance : DecidablePred Fits32 := fun x => inferInstanceAs (Decidable (-2 ^ 31 ≤ x ∧ x < 2 ^ 31))

theorem fits32_wrap32 (x : Int) : Fits32 (wrap32 x) := by
  unfold Fits32 wrap32
  omega

theorem wrap32_of_fits (h : Fits32 x) : wrap32 x = x := by
  unfold Fits32 at h
  unfold wrap32
  omega

/-- The wrap of a sum sees its terms only up to their own wrap. -/
theorem wrap32_wrap32_add (x y : Int) : wrap32 (wrap32 x + y) = wrap32 (x + y) := by
  unfold wrap32
  omega

/-- A number that does not fit is moved by a whole turn or more. -/
theorem le_abs_wrap32_sub (h : ¬Fits32 x) : wrap32 x + 2 ^ 32 ≤ x ∨ x + 2 ^ 32 ≤ wrap32 x := by
  unfold Fits32 at h
  unfold wrap32
  omega

/-! ## Rounding towards zero -/

/-- `x / d * d` with the division of C. -/
def truncTo (d x : Int) : Int := x.tdiv d * d

theorem truncTo_neg (d x : Int) : truncTo d (-x) = -truncTo d x := by
  rw [truncTo, truncTo, Int.neg_tdiv, Int.neg_mul]

theorem truncTo_of_nonneg (hd : 0 < d) (hx : 0 ≤ x) : 0 ≤ truncTo d x ∧ truncTo d x ≤ x ∧ x < truncTo d x + d := by
  rw [truncTo, Int.tdiv_eq_ediv_of_nonneg hx]
  refine ⟨Int.mul_nonneg (Int.ediv_nonneg hx (le_of_lt hd)) (le_of_lt hd), Int.ediv_mul_le x (ne_of_gt hd), ?_⟩
  have := Int.lt_ediv_add_one_mul_self x hd
  rwa [Int.add_mul, Int.one_mul] at this

theorem truncTo_of_nonpos (hd : 0 < d) (hx : x ≤ 0) : truncTo d x ≤ 0 ∧ x ≤ truncTo d x ∧ truncTo d x < x + d := by
  have h := truncTo_of_nonneg hd (Int.neg_nonneg_of_nonpos hx)
  rw [truncTo_neg] at h
  omega

theorem truncTo_near (hd : 0 < d) : truncTo d x < x + d ∧ x < truncTo d x + d := by
  rcases le_total 0 x with hx | hx
  · have := truncTo_of_nonneg hd hx
    omega
  · have := truncTo_of_nonpos hd hx
    omega

theorem fits32_truncTo (hd : 0 < d) (hx : Fits32 x) : Fits32 (truncTo d x) := by
  unfold Fits32 at *
  rcases le_total 0 x with h | h
  · have := truncTo_of_nonneg hd h
    omega
  · have := truncTo_of_nonpos hd h
    omega

theorem truncTo_eq_of_tmod (h : x.tmod d = 0) : truncTo d x = x := by
  have := Int.tmod_add_tdiv_mul x d
  rw [truncTo]
  omega

end BsdKernel.Lib
