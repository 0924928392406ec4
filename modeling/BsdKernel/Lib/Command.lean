import Mathlib.Tactic.Common
/-!
# Commands that can fail

A command changes a state and returns a value or fails. What it changed before it
failed stays changed, as after an early return of an error in C. `wp c Q E` is the
weakest precondition of `c`: the states from which a return meets `Q` and a failure
meets `E`. A proof about a command computes its `wp` with the equations below and
steps over a call with `wp_mono` and the lemma of the callee.
-/

namespace BsdKernel.Lib

variable {S ε α β : Type}

/-- A command on the states `S` that returns an `α` or fails with an `ε`. -/
def Cmd (S ε α : Type) : Type := S → Except ε α × S

namespace Cmd

/-- Do `c`, and go on with what it returned. -/
def andThen (c : Cmd S ε α) (f : α → Cmd S ε β) : Cmd S ε β := fun s =>
  match c s with
  | (.ok a, s') => f a s'
  | (.error e, s') => (.error e, s')

instance : Monad (Cmd S ε) where
  pure a := fun s => (.ok a, s)
  bind := andThen

def fail (e : ε) : Cmd S ε α := fun s => (.error e, s)

def get : Cmd S ε S := fun s => (.ok s, s)

def modify (f : S → S) : Cmd S ε Unit := fun s => (.ok (), f s)

/-- From `s`, the command returns with `Q` or fails with `E`. -/
def wp (c : Cmd S ε α) (Q : α → S → Prop) (E : ε → S → Prop) (s : S) : Prop :=
  match c s with
  | (.ok a, s') => Q a s'
  | (.error e, s') => E e s'

end Cmd

open Cmd

variable {c : Cmd S ε α} {f : α → Cmd S ε β} {Q : α → S → Prop} {R : β → S → Prop} {E : ε → S → Prop} {s : S}

@[simp] theorem wp_pure (a : α) : wp (pure a : Cmd S ε α) Q E s ↔ Q a s := Iff.rfl

@[simp] theorem wp_fail (e : ε) : wp (fail e : Cmd S ε α) Q E s ↔ E e s := Iff.rfl

@[simp] theorem wp_get {Q : S → S → Prop} : wp (get : Cmd S ε S) Q E s ↔ Q s s := Iff.rfl

@[simp] theorem wp_modify {Q : Unit → S → Prop} (g : S → S) : wp (modify g : Cmd S ε Unit) Q E s ↔ Q () (g s) := Iff.rfl

@[simp] theorem wp_bind : wp (c >>= f) R E s ↔ wp c (fun a s' => wp (f a) R E s') E s := by
  simp only [wp, bind, andThen]
  rcases c s with ⟨_ | _, _⟩ <;> rfl

@[simp] theorem wp_ite {p : Prop} [Decidable p] {d : Cmd S ε α} :
    wp (if p then c else d) Q E s ↔ (p → wp c Q E s) ∧ (¬p → wp d Q E s) := by
  by_cases hp : p <;> simp [hp]

theorem wp_mono {Q' : α → S → Prop} {E' : ε → S → Prop} (h : wp c Q' E' s) (hQ : ∀ a s', Q' a s' → Q a s')
    (hE : ∀ e s', E' e s' → E e s') : wp c Q E s := by
  unfold wp at h ⊢
  generalize c s = r at h ⊢
  rcases r with ⟨_ | _, _⟩
  · exact hE _ _ h
  · exact hQ _ _ h

theorem wp_post {Q' : α → S → Prop} (h : wp c Q' E s) (hQ : ∀ a s', Q' a s' → Q a s') : wp c Q E s :=
  wp_mono h hQ fun _ _ hE => hE

theorem wp_seq (h : wp c Q E s) (hQ : ∀ a s', Q a s' → wp (f a) R E s') : wp (c >>= f) R E s :=
  wp_bind.2 (wp_post h hQ)

theorem wp_and {Q' : α → S → Prop} {E' : ε → S → Prop} (h : wp c Q E s) (h' : wp c Q' E' s) :
    wp c (fun a s' => Q a s' ∧ Q' a s') (fun e s' => E e s' ∧ E' e s') s := by
  unfold wp at h h' ⊢
  generalize c s = r at h h' ⊢
  rcases r with ⟨_ | _, _⟩
  · exact ⟨h, h'⟩
  · exact ⟨h, h'⟩

theorem wp_ok {a : α} {s' : S} (h : wp c Q E s) (hc : c s = (.ok a, s')) : Q a s' := by
  simpa [wp, hc] using h

theorem wp_error {e : ε} {s' : S} (h : wp c Q E s) (hc : c s = (.error e, s')) : E e s' := by
  simpa [wp, hc] using h

end BsdKernel.Lib
