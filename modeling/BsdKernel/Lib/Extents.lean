import Mathlib.Order.Interval.Finset.Nat
import Mathlib.Data.Finset.Lattice.Basic
import Mathlib.Logic.Function.Basic
/-!
# Extents

Owners hold pieces of a store: `x` holds the `len x` units from `addr x` on, or nothing
if `addr x` is 0. `Extents addr len held` says that no two pieces overlap and that all
lie in `held`, the units that are handed out. A piece that is given to an owner keeps it.
-/

namespace BsdKernel.Lib

open Finset

variable {ι : Type*} {addr addr' len len' : ι → Nat} {held held' : Finset Nat} {x y : ι} {a n : Nat}

/-- The piece of `x`. -/
def extent (addr len : ι → Nat) (x : ι) : Finset Nat := Ico (addr x) (addr x + len x)

structure Extents (addr len : ι → Nat) (held : Finset Nat) : Prop where
  apart : ∀ x y, x ≠ y → addr x ≠ 0 → addr y ≠ 0 → Disjoint (extent addr len x) (extent addr len y)
  inside : ∀ x, addr x ≠ 0 → extent addr len x ⊆ held

namespace Extents

theorem inj (h : Extents addr len held) (hx : addr x ≠ 0) (hxy : addr x = addr y) (hlx : 0 < len x) (hly : 0 < len y) :
    x = y := by
  by_contra hne
  have hd := h.apart x y hne hx (hxy ▸ hx)
  have hmem : ∀ z, 0 < len z → addr z ∈ extent addr len z := fun z hz => mem_Ico.2 ⟨le_rfl, by omega⟩
  exact disjoint_left.1 hd (hmem x hlx) (hxy ▸ hmem y hly)

theorem ne_of_free (h : Extents addr len held) (hx : addr x ≠ 0) (hlx : 0 < len x) (ha : a ∉ held) : addr x ≠ a := by
  rintro rfl
  exact ha (h.inside x hx (mem_Ico.2 ⟨le_rfl, by omega⟩))

variable [DecidableEq ι]

/-- A free piece may be given to an owner that has none. -/
theorem give (h : Extents addr len held) (hx : addr x = 0) (hfree : Disjoint (Ico a (a + n)) held) :
    Extents (Function.update addr x a) (Function.update len x n) (held ∪ Ico a (a + n)) := by
  have hother : ∀ y, y ≠ x → extent (Function.update addr x a) (Function.update len x n) y = extent addr len y := by
    intro y hy
    simp [extent, hy]
  have hself : extent (Function.update addr x a) (Function.update len x n) x = Ico a (a + n) := by
    simp [extent]
  have hdis : ∀ y, y ≠ x → Function.update addr x a y ≠ 0 → Disjoint (extent addr len y) (Ico a (a + n)) := by
    intro y hy hy0
    rw [Function.update_of_ne hy] at hy0
    exact (hfree.mono_right (h.inside y hy0)).symm
  constructor
  · intro y z hyz hy hz
    by_cases hyx : y = x
    · subst hyx
      rw [hself, hother z (Ne.symm hyz)]
      exact (hdis z (Ne.symm hyz) hz).symm
    · by_cases hzx : z = x
      · subst hzx
        rw [hself, hother y hyx]
        exact hdis y hyx hy
      · rw [hother y hyx, hother z hzx]
        rw [Function.update_of_ne hyx] at hy
        rw [Function.update_of_ne hzx] at hz
        exact h.apart y z hyz hy hz
  · intro y hy
    by_cases hyx : y = x
    · subst hyx
      rw [hself]
      exact subset_union_right
    · rw [hother y hyx]
      rw [Function.update_of_ne hyx] at hy
      exact (h.inside y hy).trans subset_union_left

end Extents

end BsdKernel.Lib
