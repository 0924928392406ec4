import Mathlib.Data.List.Basic
import Mathlib.Data.List.Nodup
import Mathlib.Data.List.Count
/-!
# Sets of bits

Words as sets of small numbers: disjointness, one bit, the lowest bit of a set, and the
number of bits, which goes down when a bit is taken out.
-/

namespace BsdKernel.Lib

variable {w : Nat} {A B C : BitVec w} {i j : Nat}

theorem and_eq_zero : A &&& B = 0 ↔ ∀ i, A.getLsbD i = true → B.getLsbD i = false := by
  constructor
  · intro h i ha
    have := congrArg (BitVec.getLsbD · i) h
    simpa [ha] using this
  · intro h
    apply BitVec.eq_of_getLsbD_eq
    intro i _
    cases ha : A.getLsbD i with
    | false => simp [ha]
    | true => simp [ha, h i ha]

theorem and_eq_zero_comm : A &&& B = 0 ↔ B &&& A = 0 := by rw [BitVec.and_comm]

theorem and_eq_zero_of_sub (h : A &&& B = 0) (hs : ∀ i, C.getLsbD i = true → A.getLsbD i = true) : C &&& B = 0 :=
  and_eq_zero.2 fun i hc => and_eq_zero.1 h i (hs i hc)

theorem or_and_eq_zero (ha : A &&& C = 0) (hb : B &&& C = 0) : (A ||| B) &&& C = 0 := by
  refine and_eq_zero.2 fun i h => ?_
  rw [BitVec.getLsbD_or, Bool.or_eq_true] at h
  exact h.elim (and_eq_zero.1 ha i) (and_eq_zero.1 hb i)

theorem and_or_eq_zero (hb : A &&& B = 0) (hc : A &&& C = 0) : A &&& (B ||| C) = 0 := by
  rw [and_eq_zero_comm]
  exact or_and_eq_zero (and_eq_zero_comm.1 hb) (and_eq_zero_comm.1 hc)

theorem and_remove_eq_zero (h : C &&& A = 0) : C &&& (A &&& B) = 0 := by
  refine and_eq_zero.2 fun i hi => ?_
  have := and_eq_zero.1 h i hi
  rw [BitVec.getLsbD_and, this]
  rfl

theorem remove_and_eq_zero (h : A &&& C = 0) : (A &&& B) &&& C = 0 :=
  and_eq_zero_of_sub h fun i hi => by simp_all

theorem and_not_and_eq_zero : (A &&& ~~~C) &&& C = 0 := by
  refine and_eq_zero.2 fun i h => ?_
  have hi := BitVec.lt_of_getLsbD h
  simpa [hi] using (show A.getLsbD i = true ∧ C.getLsbD i = false by simpa [hi] using h).2

theorem and_twoPow_eq_zero : A &&& BitVec.twoPow w i = 0 ↔ A.getLsbD i = false := by
  rw [and_eq_zero_comm, and_eq_zero]
  constructor
  · intro h
    by_cases hi : i < w
    · exact h i (by simp [hi])
    · exact BitVec.getLsbD_of_ge A i (Nat.not_lt.1 hi)
  · intro h j hj
    rw [BitVec.getLsbD_twoPow, Bool.and_eq_true, decide_eq_true_eq] at hj
    simp only [decide_eq_true_eq] at hj
    rwa [← hj.2]

/-! ## The lowest bit and the number of bits -/

def lowest (A : BitVec w) : Option Nat := (List.range w).find? fun i => A.getLsbD i

theorem lowest_some (h : lowest A = some i) : i < w ∧ A.getLsbD i = true :=
  ⟨List.mem_range.1 (List.mem_of_find?_eq_some h), by simpa [lowest] using List.find?_some h⟩

theorem lowest_none : lowest A = none ↔ A = 0 := by
  unfold lowest
  rw [List.find?_eq_none]
  constructor
  · intro h
    apply BitVec.eq_of_getLsbD_eq
    intro i hi
    simpa using h i (List.mem_range.2 hi)
  · rintro rfl i -
    simp

def bits (A : BitVec w) : Nat := (List.range w).countP fun i => A.getLsbD i

theorem bits_le : bits A ≤ w := by
  have h := @List.countP_le_length _ (fun i => A.getLsbD i) (List.range w)
  rwa [List.length_range] at h

theorem bits_lt (hs : ∀ j, B.getLsbD j = true → A.getLsbD j = true) (ha : A.getLsbD i = true)
    (hb : B.getLsbD i = false) : bits B < bits A := by
  have hi : i ∈ List.range w := List.mem_range.2 (BitVec.lt_of_getLsbD ha)
  obtain ⟨l, m, hl⟩ := List.mem_iff_append.1 hi
  have hmono : ∀ l : List Nat, l.countP (fun i => B.getLsbD i) ≤ l.countP fun i => A.getLsbD i :=
    fun l => List.countP_mono_left fun j _ => hs j
  unfold bits
  rw [hl, List.countP_append, List.countP_append, List.countP_cons, List.countP_cons, ha, hb]
  have h₁ := hmono l
  have h₂ := hmono m
  simp only [if_true, Bool.false_eq_true, if_false]
  omega

end BsdKernel.Lib
