import Mathlib.Data.Finset.Card
import Mathlib.Order.Interval.Finset.Nat
/-!
# Walks that may end

`walk next a n` follows a partial link from `a`, `n` times. A walk goes on from any of its
elements (`walk_add`), so one that ends never comes back to an element (`walk_ne`) and is
no longer than the set that its elements are from (`walk_short`).
-/

namespace BsdKernel.Lib

variable {α : Type*} {next : α → Option α} {a b e : α} {i j k m n : Nat}

def walk (next : α → Option α) (a : α) : Nat → Option α
  | 0 => some a
  | n + 1 => (walk next a n).bind next

@[simp] theorem walk_zero : walk next a 0 = some a := rfl

theorem walk_succ (h : walk next a n = some b) : walk next a (n + 1) = next b := by
  rw [walk, h, Option.bind_some]

theorem walk_add (m n : Nat) : walk next a (m + n) = (walk next a m).bind fun b => walk next b n := by
  induction n with
  | zero => simp
  | succ n ih => rw [← Nat.add_assoc, walk, ih, Option.bind_assoc]; rfl

theorem walk_before (h : walk next a n = some b) (hm : m ≤ n) : ∃ c, walk next a m = some c := by
  obtain ⟨d, rfl⟩ := Nat.exists_eq_add_of_le hm
  rw [walk_add] at h
  obtain ⟨c, hc, -⟩ := Option.bind_eq_some_iff.1 h
  exact ⟨c, hc⟩

theorem walk_next (h : walk next a n = some b) (hm : m < n) {c : α} (hc : walk next a m = some c) : ∃ d, next c = some d := by
  obtain ⟨d, hd⟩ := walk_before h hm
  exact ⟨d, (walk_succ hc).symm.trans hd⟩

/-- Two ends of a walk are one. -/
theorem walk_end_unique {e' : α} (h : walk next a k = some e) (he : next e = none) (h' : walk next a m = some e')
    (he' : next e' = none) : k = m := by
  rcases Nat.lt_trichotomy k m with hlt | heq | hgt
  · obtain ⟨d, hd⟩ := walk_next h' hlt h
    rw [he] at hd
    cases hd
  · exact heq
  · obtain ⟨d, hd⟩ := walk_next h hgt h'
    rw [he'] at hd
    cases hd

/-- A walk that ends is at no element twice. -/
theorem walk_ne (h : walk next a k = some e) (he : next e = none) (hij : i < j) (hj : j ≤ k) :
    walk next a i ≠ walk next a j := by
  intro heq
  obtain ⟨c, hc⟩ := walk_before h hj
  -- from the same element, the end is as far the first time
  obtain ⟨d, rfl⟩ := Nat.exists_eq_add_of_le hj
  have hrest : walk next a (i + d) = some e := by
    rw [walk_add, heq, ← walk_add, h]
  have := walk_end_unique h he hrest he
  omega

theorem walk_short (h : walk next a k = some e) (he : next e = none) (s : Finset α)
    (hs : ∀ i ≤ k, ∀ c, walk next a i = some c → c ∈ s) : k < s.card := by
  have hle : (Finset.range (k + 1)).card ≤ s.card := by
    refine Finset.card_le_card_of_injOn (fun i => (walk next a i).getD a) (fun i hi => ?_) fun i hi j hj hij => ?_
    · have hi := Nat.le_of_lt_succ (Finset.mem_range.1 hi)
      obtain ⟨c, hc⟩ := walk_before h hi
      simp only [hc, Option.getD_some]
      exact hs i hi c hc
    · have hi := Nat.le_of_lt_succ (Finset.mem_range.1 hi)
      have hj := Nat.le_of_lt_succ (Finset.mem_range.1 hj)
      obtain ⟨c, hc⟩ := walk_before h hi
      obtain ⟨d, hd⟩ := walk_before h hj
      simp only [hc, hd, Option.getD_some] at hij
      rcases Nat.lt_trichotomy i j with hlt | heq | hgt
      · exact absurd (by rw [hc, hd, hij]) (walk_ne h he hlt hj)
      · exact heq
      · exact absurd (by rw [hc, hd, hij]) (walk_ne h he hgt hi)
  rwa [Finset.card_range] at hle

end BsdKernel.Lib
