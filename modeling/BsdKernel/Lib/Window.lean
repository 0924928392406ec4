import Mathlib.Tactic
/-!
# Deletion by a window of three

A pass over a list that looks at three neighbours at a time and deletes the
middle one where a test `p` holds. Where what comes third in a match is never
second in another, the pass deletes the middle of every match of the list it
began with (`windows`), and leaves no match exactly if the list has no `Chained`
pair of matches.
-/

namespace BsdKernel.Lib.Window

variable {α : Type*} (p : α → α → α → Bool)

/-- The matches of a list: what is first, what is in the middle, and what is behind it. -/
def windows : List α → List (α × α × List α)
  | a :: b :: c :: l =>
    if p a b c then (a, b, c :: l) :: windows (b :: c :: l) else windows (b :: c :: l)
  | _ => []

/-- The list left by the pass, which stays at a place where it has deleted. -/
def sweep : List α → List α
  | a :: b :: c :: l => if p a b c then sweep (a :: c :: l) else a :: sweep (b :: c :: l)
  | l => l
termination_by l => l.length

/-- Two matches share their third: deleting the middle of the one makes the other. -/
def Chained (l : List α) : Prop :=
  ∃ before x y b z after, l = before ++ x :: y :: b :: z :: after ∧ p x y z ∧ p y b z

theorem mem_windows {l r : List α} {a b : α} :
    (a, b, r) ∈ windows p l ↔ ∃ before c after, r = c :: after ∧ l = before ++ a :: b :: c :: after ∧ p a b c := by
  induction l with
  | nil => simp [windows]
  | cons x l ih =>
    match l with
    | [] | [_] =>
      simp only [windows, List.not_mem_nil, false_iff]
      rintro ⟨before, c, after, -, hl, -⟩
      have := congrArg List.length hl
      simp at this
      try omega
    | y :: z :: l =>
      have hcons : (a, b, r) ∈ windows p (x :: y :: z :: l) ↔
          (p x y z ∧ a = x ∧ b = y ∧ r = z :: l) ∨ (a, b, r) ∈ windows p (y :: z :: l) := by
        rw [windows]
        split <;> simp_all
      rw [hcons, ih]
      constructor
      · rintro (⟨hp, rfl, rfl, rfl⟩ | ⟨before, c, after, hr, hl, hp⟩)
        · exact ⟨[], z, l, rfl, rfl, hp⟩
        · exact ⟨x :: before, c, after, hr, congrArg (x :: ·) hl, hp⟩
      · rintro ⟨before, c, after, rfl, hl, hp⟩
        cases before with
        | nil =>
          injection hl with hx hl
          injection hl with hy hl
          injection hl with hz hl
          subst hx hy hz hl
          exact .inl ⟨hp, rfl, rfl, rfl⟩
        | cons d before =>
          injection hl with _ hl
          exact .inr ⟨before, c, after, rfl, hl, hp⟩

theorem sweep_length_le (l : List α) : (sweep p l).length ≤ l.length := by
  fun_induction sweep p l with
  | case1 a b c l _ ih => simpa using Nat.le_succ_of_le ih
  | case2 a b c l _ ih => simpa using ih
  | case3 l => exact le_rfl

theorem sweep_eq_self_iff (l : List α) : sweep p l = l ↔ windows p l = [] := by
  fun_induction sweep p l with
  | case1 a b c l hp ih =>
    have hlen := sweep_length_le p (a :: c :: l)
    simp only [windows, hp, if_true, reduceCtorEq, iff_false]
    intro h
    rw [h] at hlen
    simp at hlen
  | case2 a b c l hp ih => simp only [windows, hp, Bool.false_eq_true, if_false, List.cons.injEq, true_and, ih]
  | case3 l hl =>
    refine iff_of_true rfl ?_
    match l with
    | [] | [_] | [_, _] => rfl
    | a :: b :: c :: l => exact absurd rfl (hl a b c l)

theorem windows_cons (a b c : α) (l : List α) :
    windows p (a :: b :: c :: l) = [] ↔ p a b c = false ∧ windows p (b :: c :: l) = [] := by
  rw [windows]
  split <;> simp_all

theorem chained_cons (x y b z : α) (l : List α) :
    Chained p (x :: y :: b :: z :: l) ↔ (p x y z ∧ p y b z) ∨ Chained p (y :: b :: z :: l) := by
  constructor
  · rintro ⟨before, x', y', b', z', after, hl, hp⟩
    cases before with
    | nil =>
      obtain ⟨rfl, rfl, rfl, rfl, -⟩ : x = x' ∧ y = y' ∧ b = b' ∧ z = z' ∧ l = after := by simpa using hl
      exact .inl hp
    | cons d before =>
      injection hl with _ hl
      exact .inr ⟨before, x', y', b', z', after, hl, hp⟩
  · rintro (hp | ⟨before, x', y', b', z', after, hl, hp⟩)
    · exact ⟨[], x, y, b, z, l, rfl, hp⟩
    · exact ⟨x :: before, x', y', b', z', after, congrArg (x :: ·) hl, hp⟩

theorem not_chained_of_length {l : List α} (h : l.length < 4) : ¬Chained p l := by
  rintro ⟨before, x, y, b, z, after, rfl, -⟩
  simp at h
  omega

theorem sweep_cons (l : List α) (a : α) : ∃ l', sweep p (a :: l) = a :: l' := by
  match l with
  | [] | [_] => exact ⟨_, by rw [sweep]; simp⟩
  | b :: c :: l =>
    rw [sweep]
    split
    · exact sweep_cons (c :: l) a
    · exact ⟨_, rfl⟩
termination_by l.length

section Apart

-- what comes third in a match is second in none
variable (hsep : ∀ a b c x d, p a b c → p x c d = false)
include hsep

theorem sweep_of_match {a b c : α} (l : List α) (hp : p a b c) :
    sweep p (a :: b :: c :: l) = a :: sweep p (c :: l) := by
  rw [sweep, if_pos hp]
  match l with
  | [] => rw [sweep, sweep] <;> simp
  | d :: l => rw [sweep, if_neg (by simp [hsep a b c a d hp])]

theorem windows_third {a b c : α} (x : α) (l : List α) (hp : p a b c) :
    windows p (x :: c :: l) = windows p (c :: l) := by
  match l with
  | [] => rfl
  | d :: l => rw [windows, if_neg (by simp [hsep a b c x d hp])]

/-- No match is left exactly if no two matches share their third. -/
theorem windows_sweep (l : List α) : windows p (sweep p l) = [] ↔ ¬Chained p l := by
  match l with
  | [] | [_] | [_, _] => exact iff_of_true (by rw [sweep] <;> simp [windows]) (not_chained_of_length p (by simp))
  | [x, y, b] =>
    refine iff_of_true ?_ (not_chained_of_length p (by simp))
    by_cases hp : p x y b
    · rw [sweep_of_match p hsep [] hp, sweep] <;> simp [windows]
    · rw [sweep, if_neg hp, sweep] <;> simp [windows, hp]
  | x :: y :: b :: z :: l =>
    rw [chained_cons, not_or, ← windows_sweep (y :: b :: z :: l)]
    by_cases hp : p x y b
    · -- the third `b` of this match is second in none
      have hnot : p y b z = false := hsep x y b y z hp
      obtain ⟨t, ht⟩ := sweep_cons p (z :: l) b
      rw [sweep_of_match p hsep (z :: l) hp, sweep, if_neg (by simp [hnot]), ht, windows_third p hsep x t hp,
        windows_third p hsep y t hp]
      simp [hnot]
    · rw [sweep, if_neg hp]
      by_cases hp' : p y b z
      · rw [sweep_of_match p hsep l hp']
        obtain ⟨t, ht⟩ := sweep_cons p l z
        rw [ht, windows_cons]
        simp [hp']
      · rw [sweep, if_neg hp']
        obtain ⟨t, ht⟩ := sweep_cons p (z :: l) b
        rw [ht, windows_cons]
        simp [hp, hp']
termination_by l.length

end Apart

end BsdKernel.Lib.Window
