import Mathlib.Order.Interval.Set.Basic
import Mathlib.Order.Bounds.Basic
import Mathlib.Data.List.Basic
/-!
# Lists of intervals of natural numbers

A list of closed intervals `[lo, hi]` stands for the set it covers. `Separated`
lists are sorted with a gap of at least one number between neighbours, so the
list is determined by its set and a run of consecutive numbers of the set lies
in one interval (`Separated.run`). In a `Sorted` list neighbours may touch.
-/

namespace BsdKernel.Lib

/-- The closed interval from `lo` to `hi`. -/
structure Interval where
  lo : Nat
  hi : Nat
deriving DecidableEq, Repr

variable {l : List Interval} {r : Interval}

/-- The numbers a list of intervals covers. -/
def cover (l : List Interval) : Set Nat := { n | ∃ r ∈ l, r.lo ≤ n ∧ n ≤ r.hi }

@[simp] theorem cover_nil : cover [] = ∅ := by simp [cover]

@[simp] theorem cover_cons (r : Interval) (l : List Interval) : cover (r :: l) = Set.Icc r.lo r.hi ∪ cover l := by
  ext n; simp [cover]

@[simp] theorem cover_append (l l' : List Interval) : cover (l ++ l') = cover l ∪ cover l' := by
  ext n; simp [cover, or_and_right, exists_or]

theorem cover_middle (l l' : List Interval) (r : Interval) :
    cover (l ++ r :: l') = cover (l ++ l') ∪ Set.Icc r.lo r.hi := by
  rw [cover_append, cover_cons, cover_append, Set.union_assoc, Set.union_comm (Set.Icc _ _)]

theorem Icc_union_succ {a b c : Nat} (h₁ : a ≤ b + 1) (h₂ : b ≤ c) :
    Set.Icc a b ∪ Set.Icc (b + 1) c = Set.Icc a c := by
  ext n
  simp only [Set.mem_union, Set.mem_Icc]
  omega

/-- Nonempty intervals in increasing order, without overlap. -/
def Sorted (l : List Interval) : Prop := (∀ r ∈ l, r.lo ≤ r.hi) ∧ l.Pairwise fun a b => a.hi < b.lo

/-- Nonempty intervals in increasing order, no two of them adjacent. -/
def Separated (l : List Interval) : Prop := (∀ r ∈ l, r.lo ≤ r.hi) ∧ l.Pairwise fun a b => a.hi + 1 < b.lo

theorem Separated.sorted (h : Separated l) : Sorted l :=
  ⟨h.1, h.2.imp fun hab => by omega⟩

theorem separated_nil : Separated [] := ⟨by simp, .nil⟩

theorem separated_cons : Separated (r :: l) ↔ r.lo ≤ r.hi ∧ (∀ b ∈ l, r.hi + 1 < b.lo) ∧ Separated l := by
  simp only [Separated, List.mem_cons, forall_eq_or_imp, List.pairwise_cons]
  tauto

theorem sorted_cons : Sorted (r :: l) ↔ r.lo ≤ r.hi ∧ (∀ b ∈ l, r.hi < b.lo) ∧ Sorted l := by
  simp only [Sorted, List.mem_cons, forall_eq_or_imp, List.pairwise_cons]
  tauto

theorem separated_append {l' : List Interval} :
    Separated (l ++ l') ↔ Separated l ∧ Separated l' ∧ ∀ a ∈ l, ∀ b ∈ l', a.hi + 1 < b.lo := by
  simp only [Separated, List.mem_append, or_imp, forall_and, List.pairwise_append]
  tauto

theorem sorted_append {l' : List Interval} :
    Sorted (l ++ l') ↔ Sorted l ∧ Sorted l' ∧ ∀ a ∈ l, ∀ b ∈ l', a.hi < b.lo := by
  simp only [Sorted, List.mem_append, or_imp, forall_and, List.pairwise_append]
  tauto

theorem mem_cover_of_mem {n : Nat} (hr : r ∈ l) (h₁ : r.lo ≤ n) (h₂ : n ≤ r.hi) :
    n ∈ cover l := ⟨r, hr, h₁, h₂⟩

theorem Separated.apart (h : Separated l) {a b : Interval} (ha : a ∈ l) (hb : b ∈ l) :
    a = b ∨ a.hi + 1 < b.lo ∨ b.hi + 1 < a.lo := by
  have hR : ∀ ⦃a⦄, a ∈ l → ∀ ⦃b⦄, b ∈ l → a = b ∨ a.hi + 1 < b.lo ∨ b.hi + 1 < a.lo :=
    List.Pairwise.forall_of_forall_of_flip (fun _ _ => .inl rfl) (h.2.imp fun hab => .inr (.inl hab))
      (h.2.imp fun hab => .inr (.inr hab))
  exact hR ha hb

theorem Separated.run (h : Separated l) {s n : Nat} (hn : 1 ≤ n) (hrun : Set.Ico s (s + n) ⊆ cover l) :
    ∃ r ∈ l, r.lo ≤ s ∧ s + n ≤ r.hi + 1 := by
  induction n with
  | zero => omega
  | succ n ih =>
    obtain ⟨r, hr, hlo, hhi⟩ := hrun (show s + n ∈ Set.Ico s (s + (n + 1)) from ⟨by omega, by omega⟩)
    rcases Nat.eq_zero_or_pos n with rfl | hpos
    · exact ⟨r, hr, by omega, by omega⟩
    · obtain ⟨r', hr', hlo', hhi'⟩ := ih hpos fun k hk => hrun ⟨hk.1, by have := hk.2; omega⟩
      -- The interval of the first `n` numbers reaches the one of the last, so they are the same.
      rcases h.apart hr' hr with rfl | hlt | hlt
      · exact ⟨r', hr, hlo', by omega⟩
      · omega
      · omega

theorem Separated.head_le (h : Separated (r :: l)) {n : Nat} (hn : n ∈ cover (r :: l)) : r.lo ≤ n := by
  obtain ⟨hlo, hl, -⟩ := separated_cons.1 h
  obtain ⟨b, hb, hb₁, -⟩ := hn
  rcases List.mem_cons.1 hb with rfl | hb
  · exact hb₁
  · have := hl b hb
    omega

end BsdKernel.Lib
