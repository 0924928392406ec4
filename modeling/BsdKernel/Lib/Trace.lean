import Mathlib.Data.List.Basic
/-!
# Runs of a step function

A system is a step function on states and inputs. `states step s as` are the
states a run visits, the first one included; `Along step ok s as` says that
`ok` holds of every state and the input taken there. `states_of_along` derives
an invariant of a whole run from its step, and `states_iff_along` turns a step
condition that is exact in the states of an invariant into an exact condition
on runs.
-/

namespace BsdKernel.Lib

variable {S A : Type*} (step : S → A → S)

/-- The states of the run from `s` on the inputs `as`, in order. -/
def states (s : S) : List A → List S
  | [] => [s]
  | a :: as => s :: states (step s a) as

/-- The state a run ends in. -/
def final (s : S) (as : List A) : S := as.foldl step s

/-- Every step of the run meets `ok` in the state it is taken in. -/
def Along (ok : S → A → Prop) (s : S) : List A → Prop
  | [] => True
  | a :: as => ok s a ∧ Along ok (step s a) as

instance Along.decidable (ok : S → A → Prop) [∀ s a, Decidable (ok s a)] :
    ∀ (as : List A) (s : S), Decidable (Along step ok s as)
  | [], _ => inferInstanceAs (Decidable True)
  | a :: as, s => @instDecidableAnd _ _ _ (Along.decidable ok as (step s a))

@[simp] theorem mem_states_self (s : S) (as : List A) : s ∈ states step s as := by
  cases as <;> simp [states]

theorem final_mem_states (s : S) (as : List A) : final step s as ∈ states step s as := by
  induction as generalizing s with
  | nil => simp [states, final]
  | cons a as ih => exact List.mem_cons_of_mem _ (ih (step s a))

theorem along_append (ok : S → A → Prop) (s : S) (as bs : List A) :
    Along step ok s (as ++ bs) ↔ Along step ok s as ∧ Along step ok (final step s as) bs := by
  induction as generalizing s with
  | nil => simp [Along, final]
  | cons a as ih => simp [Along, ih, final, and_assoc]

theorem along_of_forall {ok : S → A → Prop} (h : ∀ s a, ok s a) (s : S) (as : List A) : Along step ok s as := by
  induction as generalizing s with
  | nil => trivial
  | cons a as ih => exact ⟨h s a, ih (step s a)⟩

theorem along_and (ok ok' : S → A → Prop) (s : S) (as : List A) :
    Along step (fun s a => ok s a ∧ ok' s a) s as ↔ Along step ok s as ∧ Along step ok' s as := by
  induction as generalizing s with
  | nil => simp [Along]
  | cons a as ih => simp only [Along, ih]; tauto

section Rules
variable {step} {ok : S → A → Prop} {I : S → Prop}

theorem states_of_along (hstep : ∀ s a, I s → ok s a → I (step s a)) {s : S} {as : List A}
    (hs : I s) (ha : Along step ok s as) : ∀ t ∈ states step s as, I t := by
  induction as generalizing s with
  | nil => simpa [states] using hs
  | cons a as ih =>
    intro t ht
    rcases List.mem_cons.1 ht with rfl | ht
    · exact hs
    · exact ih (hstep s a hs ha.1) ha.2 t ht

theorem final_of_along (hstep : ∀ s a, I s → ok s a → I (step s a)) {s : S} {as : List A}
    (hs : I s) (ha : Along step ok s as) : I (final step s as) :=
  states_of_along hstep hs ha _ (final_mem_states step s as)

theorem along_of_inv {ok' : S → A → Prop} (hstep : ∀ s a, I s → ok s a → I (step s a))
    (h : ∀ s a, I s → ok s a → ok' s a) {s : S} {as : List A} (hs : I s) (ha : Along step ok s as) : Along step ok' s as := by
  induction as generalizing s with
  | nil => trivial
  | cons a as ih => exact ⟨h s a hs ha.1, ih (hstep s a hs ha.1) ha.2⟩

/-- If in the states of an invariant the possible steps outside `ok` are exactly
those that lose `P`, the runs that keep `P` throughout are those inside `ok`. -/
theorem states_iff_along {pre : S → A → Prop} {P : S → Prop}
    (hstep : ∀ s a, I s → pre s a → ok s a → I (step s a)) (hP : ∀ s, I s → P s)
    (hbad : ∀ s a, I s → pre s a → ¬ok s a → ¬P (step s a)) {s : S} {as : List A}
    (hs : I s) (hpre : Along step pre s as) : (∀ t ∈ states step s as, P t) ↔ Along step ok s as := by
  constructor
  · intro h
    induction as generalizing s with
    | nil => trivial
    | cons a as ih =>
      have hok : ok s a := by
        by_contra hn
        exact hbad s a hs hpre.1 hn (h _ (List.mem_cons_of_mem _ (mem_states_self step _ as)))
      exact ⟨hok, ih (hstep s a hs hpre.1 hok) hpre.2 (fun t ht => h t (List.mem_cons_of_mem _ ht))⟩
  · intro h t ht
    have hboth := (along_and step pre ok s as).2 ⟨hpre, h⟩
    exact hP t (states_of_along (fun s a hi ha => hstep s a hi ha.1 ha.2) hs hboth t ht)

theorem states_iff_ok {P : S → Prop} (hstep : ∀ s a, I s → ok s a → I (step s a)) (hP : ∀ s, I s → P s)
    (hbad : ∀ s a, I s → ¬ok s a → ¬P (step s a)) {s : S} (as : List A) (hs : I s) :
    (∀ t ∈ states step s as, P t) ↔ Along step ok s as :=
  states_iff_along (fun s a hi _ hok => hstep s a hi hok) hP (fun s a hi _ hn => hbad s a hi hn) hs
    (along_of_forall step (fun _ _ => trivial) s as)

/-- If the steps outside `ok` lead from `Good` to `Bad` and nothing leads out of `Bad`, the
runs inside `ok` end in `Good` and all others in `Bad`. -/
theorem final_good_or_bad {Good Bad : S → Prop} (hstep : ∀ s a, Good s → ok s a → Good (step s a))
    (hslip : ∀ s a, Good s → ¬ok s a → Bad (step s a)) (hbad : ∀ s a, Bad s → Bad (step s a)) {s : S} (as : List A)
    (hs : Good s) : Along step ok s as ∧ Good (final step s as) ∨ ¬Along step ok s as ∧ Bad (final step s as) := by
  have hstay : ∀ (as : List A) (s : S), Bad s → Bad (final step s as) := by
    intro as
    induction as with
    | nil => exact fun s h => h
    | cons a as ih => exact fun s h => ih (step s a) (hbad s a h)
  induction as generalizing s with
  | nil => exact .inl ⟨trivial, hs⟩
  | cons a as ih =>
    by_cases hok : ok s a
    · rcases ih (hstep s a hs hok) with ⟨halong, hgood⟩ | ⟨halong, hb⟩
      · exact .inl ⟨⟨hok, halong⟩, hgood⟩
      · exact .inr ⟨fun h => halong h.2, hb⟩
    · exact .inr ⟨fun h => hok h.1, hstay as _ (hslip s a hs hok)⟩

end Rules

end BsdKernel.Lib
