import Mathlib.Data.List.Basic
/-!
# Alternating sequences

Two signals alternate in a sequence when it is `a, b, a, b, …`. A sequence that
grows at its end keeps alternating as long as each new signal is the other one
of its last.
-/

namespace BsdKernel.Lib

variable {α : Type*}

/-- `a` and `b` strictly alternate, beginning with `a`. -/
def Alternates (a b : α) : List α → Prop
  | [] => True
  | c :: l => c = a ∧ Alternates b a l

variable {a b c : α} {l : List α}

theorem Alternates.getLast (h : Alternates a b l) : l = [] ∨ l.getLast? = some a ∨ l.getLast? = some b := by
  induction l generalizing a b with
  | nil => exact .inl rfl
  | cons c l ih =>
    obtain ⟨rfl, h⟩ := h
    rw [List.getLast?_cons]
    rcases ih h with rfl | hb | ha
    · exact .inr (.inl rfl)
    · exact .inr (.inr (by rw [hb]; rfl))
    · exact .inr (.inl (by rw [ha]; rfl))

theorem alternates_concat [DecidableEq α] (hne : a ≠ b) :
    Alternates a b (l ++ [c]) ↔ Alternates a b l ∧ c = if l.getLast? = some a then b else a := by
  induction l generalizing a b with
  | nil => simp [Alternates]
  | cons d l ih =>
    simp only [List.cons_append, Alternates, ih hne.symm, and_assoc]
    refine and_congr_right fun hd => and_congr_right fun hl => ?_
    -- the last signal of the rest decides, and there is none behind a single one
    rw [hd, List.getLast?_cons]
    rcases hl.getLast with rfl | hb | ha
    · simp
    · simp [hb, hne.symm]
    · simp [ha, hne]

end BsdKernel.Lib
