import BsdKernel.Lib.Loop
import Mathlib.Data.List.Nodup
/-!
# Rings

A doubly linked circular list through a head that is not an element: `none` is
the pointer to the head. `Ring next prev l` says that the links lead through `l`
from the head back to it, in both directions.
-/

namespace BsdKernel.Lib

variable {α : Type*} {next prev : Option α → Option α} {l b r : List α} {a : α}

/-- Wherever the list is cut, the two ends are linked to each other; the end of an
empty part is the head. -/
structure Ring (next prev : Option α → Option α) (l : List α) : Prop where
  nodup : l.Nodup
  next : ∀ b r, l = b ++ r → next b.getLast? = r.head?
  prev : ∀ b r, l = b ++ r → prev r.head? = b.getLast?

namespace Ring

theorem next_head (h : Ring next prev l) : next none = l.head? := h.next [] l rfl

theorem next_elem (h : Ring next prev l) (hl : l = b ++ a :: r) : next (some a) = r.head? := by
  simpa using h.next (b ++ [a]) r (by simpa using hl)

theorem prev_elem (h : Ring next prev l) (hl : l = b ++ a :: r) : prev (some a) = b.getLast? :=
  h.prev b (a :: r) hl

theorem prev_head (h : Ring next prev l) : prev none = l.getLast? := h.prev l [] (by simp)

end Ring

end BsdKernel.Lib
