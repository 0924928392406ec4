import Mathlib.Data.List.Nodup
import Mathlib.Algebra.BigOperators.Group.List.Basic
import Mathlib.Tactic
/-!
# Tallies

The sum of a number over the elements of a list, and what a change of one element does to it.
-/

namespace BsdKernel.Lib

variable {α : Type*} {f g : α → Nat} {l m : List α} {a : α}

def tally (f : α → Nat) (l : List α) : Nat := (l.map f).sum

@[simp] theorem tally_nil (f : α → Nat) : tally f [] = 0 := rfl

@[simp] theorem tally_cons (f : α → Nat) (a : α) (l : List α) : tally f (a :: l) = f a + tally f l := by
  simp [tally]

@[simp] theorem tally_append (f : α → Nat) (l m : List α) : tally f (l ++ m) = tally f l + tally f m := by
  simp [tally]

theorem tally_congr (h : ∀ b ∈ l, g b = f b) : tally g l = tally f l := by
  unfold tally
  rw [List.map_congr_left h]

theorem tally_perm (h : l.Perm m) : tally f l = tally f m := (h.map f).sum_eq

theorem le_tally (ha : a ∈ l) : f a ≤ tally f l := by
  induction l with
  | nil => simp at ha
  | cons b l ih =>
    rw [tally_cons]
    rcases List.mem_cons.1 ha with rfl | ha
    · exact Nat.le_add_right _ _
    · exact Nat.le_trans (ih ha) (Nat.le_add_left _ _)

theorem tally_update (hl : l.Nodup) (ha : a ∈ l) (h : ∀ b ∈ l, b ≠ a → g b = f b) :
    tally g l + f a = tally f l + g a := by
  induction l with
  | nil => simp at ha
  | cons b l ih =>
    obtain ⟨hb, hl⟩ := List.nodup_cons.1 hl
    rw [tally_cons, tally_cons]
    rcases List.mem_cons.1 ha with rfl | ha
    · rw [tally_congr fun c hc => h c (List.mem_cons_of_mem _ hc) (ne_of_mem_of_not_mem hc hb)]
      omega
    · have hba : b ≠ a := fun he => hb (he ▸ ha)
      have := ih hl ha fun c hc => h c (List.mem_cons_of_mem _ hc)
      rw [h b (by simp) hba]
      omega

theorem tally_erase [DecidableEq α] (ha : a ∈ l) : tally f (l.erase a) + f a = tally f l := by
  rw [tally_perm (List.perm_cons_erase ha), tally_cons]
  omega

end BsdKernel.Lib
