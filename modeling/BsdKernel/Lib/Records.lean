import Mathlib.Data.List.Basic
import Mathlib.Tactic.Common
import Mathlib.Tactic
/-!
# Records in a buffer

Numbers in little-endian bytes, and records that follow each other in a buffer, each
from the first multiple of `a` after the end of the one before. `next` reads the
record at the front of a list with its length; `parse` reads a whole buffer.
`Tiled.parse` says that a buffer tiled with records parses to them, and
`Tiled.snoc` that a record appended at the rounded end keeps it tiled.
-/

namespace BsdKernel.Lib

/-! ## Little-endian numbers -/

/-- The `k` bytes of `n`, the low one first. -/
def toLe : Nat → Nat → List (BitVec 8)
  | 0, _ => []
  | k + 1, n => BitVec.ofNat 8 n :: toLe k (n / 256)

def ofLe : List (BitVec 8) → Nat
  | [] => 0
  | b :: bs => b.toNat + 256 * ofLe bs

@[simp] theorem toLe_length (k n : Nat) : (toLe k n).length = k := by
  induction k generalizing n with
  | zero => rfl
  | succ k ih => simp [toLe, ih]

theorem ofLe_toLe {k n : Nat} (h : n < 256 ^ k) : ofLe (toLe k n) = n := by
  induction k generalizing n with
  | zero =>
    have : n = 0 := by omega
    simp [toLe, ofLe, this]
  | succ k ih =>
    have hd : n / 256 < 256 ^ k := by
      apply Nat.div_lt_of_lt_mul
      rwa [Nat.mul_comm, ← Nat.pow_succ]
    rw [toLe, ofLe, ih hd, BitVec.toNat_ofNat]
    omega

/-! ## Aligned records -/

/-- The first multiple of `a` from `n` on. -/
def roundUp (a n : Nat) : Nat := (n + (a - 1)) / a * a

section Round
variable {a : Nat}

theorem le_roundUp (ha : 0 < a) (n : Nat) : n ≤ roundUp a n := by
  have h := Nat.div_add_mod (n + (a - 1)) a
  have hm := Nat.mod_lt (n + (a - 1)) ha
  rw [Nat.mul_comm] at h
  unfold roundUp
  omega

theorem roundUp_add_mul (ha : 0 < a) (n k : Nat) : roundUp a (a * k + n) = a * k + roundUp a n := by
  unfold roundUp
  rw [Nat.add_assoc, Nat.mul_add_div ha, Nat.add_mul, Nat.mul_comm k a]

@[simp] theorem roundUp_zero (ha : 0 < a) : roundUp a 0 = 0 := by
  have : (0 + (a - 1)) / a = 0 := Nat.div_eq_of_lt (by omega)
  rw [roundUp, this, Nat.zero_mul]

theorem roundUp_roundUp_add (ha : 0 < a) (n m : Nat) : roundUp a (roundUp a n + m) = roundUp a n + roundUp a m := by
  have : roundUp a n = a * ((n + (a - 1)) / a) := by rw [roundUp, Nat.mul_comm]
  rw [this, roundUp_add_mul ha]

end Round

section Parse
variable {α β : Type*} (a : Nat) (next : List α → Option (β × Nat))

/-- The records of a buffer, at most `fuel` of them. -/
def parse : Nat → List α → List β
  | 0, _ => []
  | fuel + 1, c =>
    match next c with
    | none => []
    | some (r, n) => r :: parse fuel (c.drop (roundUp a n))

/-- `b` is the record `r`, whatever follows it. -/
def Reads (b : List α) (r : β) : Prop := b ≠ [] ∧ ∀ rest, next (b ++ rest) = some (r, b.length)

/-- A buffer that holds the records `rs`, with the space between them left as it is. -/
inductive Tiled : List α → List β → Prop
  | nil : Tiled [] []
  | single {b : List α} {r : β} (h : Reads next b r) : Tiled b [r]
  | cons {b gap c : List α} {r : β} {rs : List β} (h : Reads next b r)
      (hgap : b.length + gap.length = roundUp a b.length) (hrest : Tiled c rs) (hne : rs ≠ []) :
      Tiled (b ++ gap ++ c) (r :: rs)

variable {a next} {b gap c : List α} {r : β} {rs : List β}

theorem Tiled.eq_nil_iff (h : Tiled a next c rs) : c = [] ↔ rs = [] := by
  cases h with
  | nil => simp
  | single h => simp [h.1]
  | cons h => simp [h.1]

theorem Tiled.snoc (ha : 0 < a) (h : Tiled a next c rs) (hgap : c.length + gap.length = roundUp a c.length)
    (hb : Reads next b r) : Tiled a next (c ++ gap ++ b) (rs ++ [r]) := by
  induction h with
  | nil =>
    have : gap = [] := by
      rw [List.length_nil, roundUp_zero ha, Nat.zero_add] at hgap
      exact List.length_eq_zero_iff.1 hgap
    simpa [this] using Tiled.single hb
  | @single b' r' h' => exact Tiled.cons h' hgap (.single hb) (by simp)
  | @cons b' gap' c' r' rs' h' hgap' _ hne ih =>
    have hlen : c'.length + gap.length = roundUp a c'.length := by
      have hsum := roundUp_roundUp_add ha b'.length c'.length
      rw [← hgap'] at hsum
      rw [List.length_append, List.length_append, hsum, hgap'] at hgap
      omega
    have := Tiled.cons h' hgap' (ih hlen) (by simp)
    simpa [List.append_assoc] using this

/-- A tiled buffer parses to its records. -/
theorem Tiled.parse (ha : 0 < a) (hnil : next [] = none) (h : Tiled a next c rs) {fuel : Nat} (hf : c.length ≤ fuel) :
    parse a next fuel c = rs := by
  induction h generalizing fuel with
  | nil => cases fuel <;> simp [Lib.parse, hnil]
  | @single b r h =>
    have hpos := List.length_pos_iff.2 h.1
    obtain ⟨fuel, rfl⟩ : ∃ f, fuel = f + 1 := ⟨fuel - 1, by omega⟩
    have hr := h.2 []
    rw [List.append_nil] at hr
    have hdrop : b.drop (roundUp a b.length) = [] := List.drop_eq_nil_of_le (le_roundUp ha _)
    cases fuel <;> simp [Lib.parse, hr, hdrop, hnil]
  | @cons b gap c r rs h hgap _ _ ih =>
    have hpos := List.length_pos_iff.2 h.1
    rw [List.length_append, List.length_append] at hf
    obtain ⟨fuel, rfl⟩ : ∃ f, fuel = f + 1 := ⟨fuel - 1, by omega⟩
    have hr := h.2 (gap ++ c)
    rw [← List.append_assoc] at hr
    have hdrop : (b ++ gap ++ c).drop (roundUp a b.length) = c := by
      rw [← hgap, ← List.length_append, List.drop_left]
    simp only [Lib.parse, hr, hdrop, ih (by omega : c.length ≤ fuel)]

end Parse

end BsdKernel.Lib
