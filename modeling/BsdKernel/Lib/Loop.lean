import Mathlib.Order.Basic
/-!
# Loops

A loop is a step that goes on in a new state or ends with a result; `loop step n s`
runs it for at most `n` rounds. `loop_post` is the invariant rule, `loop_ends` says that
a measure bounds the rounds, and `loop_total` puts the two together.
-/

namespace BsdKernel.Lib

variable {S R : Type*}

/-- The result of the loop, if it ends within `n` rounds. -/
def loop (step : S → S ⊕ R) : Nat → S → Option R
  | 0, _ => none
  | n + 1, s =>
    match step s with
    | .inl s' => loop step n s'
    | .inr r => some r

variable {step : S → S ⊕ R} {I : S → Prop} {Q : R → Prop} {s : S} {r : R} {n : Nat}

/-- What holds at the entry, is kept by every round and gives `Q` at the end, gives `Q` of the result. -/
theorem loop_post (hgo : ∀ s s', I s → step s = .inl s' → I s') (hend : ∀ s r, I s → step s = .inr r → Q r)
    (hs : I s) (h : loop step n s = some r) : Q r := by
  induction n generalizing s with
  | zero => simp [loop] at h
  | succ n ih =>
    unfold loop at h
    cases he : step s with
    | inl s' =>
      rw [he] at h
      exact ih (hgo s s' hs he) h
    | inr q =>
      rw [he] at h
      obtain rfl := Option.some.inj h
      exact hend s q hs he

/-- A loop whose rounds lower a measure ends within as many rounds. -/
theorem loop_ends {μ : S → Nat} (hgo : ∀ s s', I s → step s = .inl s' → I s' ∧ μ s' < μ s) (hs : I s)
    (hn : μ s < n) : ∃ r, loop step n s = some r := by
  induction n generalizing s with
  | zero => exact absurd hn (by simp)
  | succ n ih =>
    unfold loop
    cases he : step s with
    | inl s' =>
      obtain ⟨hI, hlt⟩ := hgo s s' hs he
      exact ih hI (by omega)
    | inr q => exact ⟨q, rfl⟩

/-- A round keeps the invariant and lowers the measure, or ends with `Q`: so the loop ends with `Q`. -/
theorem loop_total {μ : S → Nat} (hround : ∀ s, I s → (step s).elim (fun s' => I s' ∧ μ s' < μ s) Q) (hs : I s)
    (hn : μ s < n) : ∃ r, loop step n s = some r ∧ Q r := by
  have hgo : ∀ s s', I s → step s = .inl s' → I s' ∧ μ s' < μ s := by
    intro s s' hi he
    have h := hround s hi
    rwa [he] at h
  have hend : ∀ s r, I s → step s = .inr r → Q r := by
    intro s r hi he
    have h := hround s hi
    rwa [he] at h
  obtain ⟨r, hr⟩ := loop_ends hgo hs hn
  exact ⟨r, hr, loop_post (fun s s' hi he => (hgo s s' hi he).1) hend hs hr⟩

end BsdKernel.Lib
