import Mathlib.Data.List.Nodup
import Mathlib.Logic.Function.Basic
/-!
# Tail queues

Elements linked forwards by pointers and backwards by the address of the pointer
that leads to them. A cell is a place that holds a forward pointer: the head of
the queue or the link of an element. `Tailq L l` says that the cells lead
through `l` to a null link and that every element knows the cell before it;
`Tailq.remove`, `Tailq.snoc` and `Tailq.cons` are the three open-coded updates.
-/

namespace BsdKernel.Lib

/-- Where a forward pointer is kept. -/
inductive Cell (α : Type*)
  | head
  | next (a : α)
  deriving DecidableEq

/-- The memory of a queue: the head, the links, and the back pointers to cells. -/
structure Links (α : Type*) where
  first : Option α
  next : α → Option α
  prev : α → Option (Cell α)

variable {α : Type*}

namespace Cell

/-- The cell reached from `c` behind the elements `l`. -/
def after (c : Cell α) : List α → Cell α
  | [] => c
  | a :: l => after (.next a) l

@[simp] theorem after_nil (c : Cell α) : c.after [] = c := rfl
@[simp] theorem after_cons (c : Cell α) (a : α) (l : List α) : c.after (a :: l) = (Cell.next a).after l := rfl

@[simp] theorem after_append (c : Cell α) (l m : List α) : c.after (l ++ m) = (c.after l).after m := by
  induction l generalizing c with
  | nil => rfl
  | cons a l ih => exact ih (.next a)

theorem after_eq (c : Cell α) (l : List α) : c.after l = (l.getLast?.map Cell.next).getD c := by
  induction l generalizing c with
  | nil => rfl
  | cons a l ih => simp [ih, List.getLast?_cons]

theorem after_ne_next {c : Cell α} {l : List α} {a : α} (ha : a ∉ l) (hc : c ≠ .next a) : c.after l ≠ .next a := by
  induction l generalizing c with
  | nil => exact hc
  | cons b l ih =>
    have hb : b ≠ a := fun he => ha (by simp [he])
    exact ih (fun h => ha (by simp [h])) (fun he => hb (Cell.next.inj he))

end Cell

namespace Links
variable [DecidableEq α]

def read (L : Links α) : Cell α → Option α
  | .head => L.first
  | .next a => L.next a

def write (L : Links α) (c : Cell α) (p : Option α) : Links α :=
  match c with
  | .head => { L with first := p }
  | .next a => { L with next := Function.update L.next a p }

def setPrev (L : Links α) (a : α) (c : Option (Cell α)) : Links α := { L with prev := Function.update L.prev a c }

@[simp] theorem read_write_self (L : Links α) (c : Cell α) (p : Option α) : (L.write c p).read c = p := by
  cases c <;> simp [write, read]

@[simp] theorem read_write_ne (L : Links α) {c d : Cell α} (h : d ≠ c) (p : Option α) : (L.write c p).read d = L.read d := by
  cases c <;> cases d <;> simp_all [write, read, Function.update_of_ne]

@[simp] theorem prev_write (L : Links α) (c : Cell α) (p : Option α) : (L.write c p).prev = L.prev := by
  cases c <;> rfl

@[simp] theorem read_setPrev (L : Links α) (a : α) (c : Option (Cell α)) : (L.setPrev a c).read = L.read := by
  funext d
  cases d <;> rfl

@[simp] theorem prev_setPrev (L : Links α) (a : α) (c : Option (Cell α)) :
    (L.setPrev a c).prev = Function.update L.prev a c := rfl

/-- The element `a` taken out: its successor learns the cell `c` before `a`, and
that cell is given `a`'s link. -/
def remove (L : Links α) (a : α) (c : Cell α) : Links α :=
  let L' := match L.next a with
    | some q => L.setPrev q (some c)
    | none => L
  L'.write c (L.next a)

theorem prev_remove (L : Links α) {a b : α} (c : Cell α) (h : L.next a ≠ some b) : (L.remove a c).prev b = L.prev b := by
  unfold remove
  cases hq : L.next a with
  | none => simp
  | some q => simp [show b ≠ q from fun he => h (by rw [hq, he])]

/-- The element `a` hung into the cell `c`, with a null link of its own. -/
def hang (L : Links α) (a : α) (c : Cell α) : Links α := ((L.write c (some a)).setPrev a (some c)).write (.next a) none

/-- The element `a` put before the first element. -/
def push (L : Links α) (a : α) : Links α :=
  let L' := (L.write (.next a) L.first).setPrev a (some .head)
  let L'' := match L.first with
    | some q => L'.setPrev q (some (.next a))
    | none => L'
  L''.write .head (some a)

theorem prev_push (L : Links α) {a b : α} (hb : b ≠ a) (h : L.first ≠ some b) : (L.push a).prev b = L.prev b := by
  unfold push
  cases hq : L.first with
  | none => simp [hb]
  | some q => simp [hb, show b ≠ q from fun he => h (by rw [hq, he])]

theorem prev_hang (L : Links α) {a b : α} (c : Cell α) (hb : b ≠ a) : (L.hang a c).prev b = L.prev b := by
  simp [hang, hb]

end Links

/-! ## Paths -/

section Path
variable {L L' : Links α} {c : Cell α} {l m : List α}

/-- From the cell `c` the links lead through `l`, and each element of `l` points
back at the cell it hangs in. -/
def Path (L : Links α) (c : Cell α) : List α → Prop
  | [] => True
  | a :: l => L.read c = some a ∧ L.prev a = some c ∧ Path L (.next a) l

/-- The cells a path reads. -/
def cells (c : Cell α) : List α → List (Cell α)
  | [] => []
  | a :: l => c :: cells (.next a) l

theorem path_append : Path L c (l ++ m) ↔ Path L c l ∧ Path L (c.after l) m := by
  induction l generalizing c with
  | nil => simp [Path]
  | cons a l ih => simp [Path, ih, and_assoc]

theorem Path.congr (h : Path L c l) (hr : ∀ d ∈ cells c l, L'.read d = L.read d)
    (hp : ∀ a ∈ l, L'.prev a = L.prev a) : Path L' c l := by
  induction l generalizing c with
  | nil => trivial
  | cons a l ih =>
    refine ⟨?_, ?_, ih h.2.2 (fun d hd => hr d (List.mem_cons_of_mem _ hd)) fun b hb => hp b (by simp [hb])⟩
    · rw [hr c (by simp [cells]), h.1]
    · rw [hp a (by simp), h.2.1]

theorem mem_cells {d : Cell α} (h : d ∈ cells c l) : d = c ∨ ∃ a ∈ l, d = .next a := by
  induction l generalizing c with
  | nil => simp [cells] at h
  | cons a l ih =>
    rcases List.mem_cons.1 h with rfl | h
    · exact Or.inl rfl
    · right
      rcases ih h with rfl | ⟨b, hb, rfl⟩
      · exact ⟨a, by simp, rfl⟩
      · exact ⟨b, by simp [hb], rfl⟩

/-- A path does not read the cell it ends in. -/
theorem after_notMem_cells (hn : l.Nodup) (hc : ∀ a ∈ l, c ≠ .next a) : c.after l ∉ cells c l := by
  induction l generalizing c with
  | nil => simp [cells]
  | cons a l ih =>
    have ha := List.nodup_cons.1 hn
    rintro h
    rcases List.mem_cons.1 h with h | h
    · cases l with
      | nil => exact hc a (by simp) h.symm
      | cons b l =>
        rw [Cell.after_cons, Cell.after_eq] at h
        cases hl : (b :: l).getLast? with
        | none => simp at hl
        | some z =>
          rw [hl] at h
          exact hc z (List.mem_cons_of_mem _ (List.mem_of_getLast? hl)) h.symm
    · refine ih ha.2 (fun b hb he => ha.1 ?_) h
      rw [Cell.next.inj he]
      exact hb

end Path

/-! ## The queue -/

/-- The queue of `L` has the elements `l`, from the head to a null link. -/
structure Tailq (L : Links α) (l : List α) : Prop where
  nodup : l.Nodup
  path : Path L .head l
  last : L.read (Cell.head.after l) = none

namespace Tailq
variable {L L' : Links α} {l l₁ l₂ : List α} {a : α}

theorem congr (h : Tailq L l) (hf : L'.first = L.first) (hn : ∀ a ∈ l, L'.next a = L.next a)
    (hp : ∀ a ∈ l, L'.prev a = L.prev a) : Tailq L' l := by
  have hread : ∀ d, d = .head ∨ (∃ a ∈ l, d = .next a) → L'.read d = L.read d := by
    rintro d (rfl | ⟨a, ha, rfl⟩)
    · exact hf
    · exact hn a ha
  refine ⟨h.nodup, h.path.congr (fun d hd => hread d (mem_cells hd)) hp, ?_⟩
  rw [hread _ ?_, h.last]
  rw [Cell.after_eq]
  cases hl : l.getLast? with
  | none => exact Or.inl rfl
  | some z => exact Or.inr ⟨z, List.mem_of_getLast? hl, rfl⟩

theorem first_eq (h : Tailq L l) : L.first = l.head? := by
  cases l with
  | nil => exact h.last
  | cons a l => exact h.path.1

theorem prev_eq (h : Tailq L (l₁ ++ a :: l₂)) : L.prev a = some (Cell.head.after l₁) :=
  (path_append.1 h.path).2.2.1

theorem next_eq (h : Tailq L (l₁ ++ a :: l₂)) : L.next a = l₂.head? := by
  have hp := (path_append.1 h.path).2.2.2
  cases l₂ with
  | nil => simpa [Links.read] using h.last
  | cons b l₂ => exact hp.1

variable [DecidableEq α]

theorem remove (h : Tailq L (l₁ ++ a :: l₂)) : Tailq (L.remove a (Cell.head.after l₁)) (l₁ ++ l₂) := by
  obtain ⟨hp₁, -, -, hp₂⟩ := path_append.1 h.path
  have hn := List.nodup_append.1 h.nodup
  have hm : ∀ b ∈ l₂, Cell.head.after l₁ ≠ .next b := fun b hb =>
    Cell.after_ne_next (fun h₁ => hn.2.2 b h₁ b (by simp [hb]) rfl) (by simp)
  have hread : ∀ d, d ≠ Cell.head.after l₁ → (L.remove a (Cell.head.after l₁)).read d = L.read d := by
    intro d hd
    unfold Links.remove
    cases L.next a <;> simp [hd]
  have hprev : ∀ b, L.next a ≠ some b → (L.remove a (Cell.head.after l₁)).prev b = L.prev b :=
    fun b hb => L.prev_remove (Cell.head.after l₁) hb
  -- the elements before `a` keep their cells and back pointers
  have hfront : Path (L.remove a (Cell.head.after l₁)) .head l₁ := by
    refine hp₁.congr (fun d hd => hread d fun he => ?_) fun b hb => hprev b fun he => ?_
    · exact after_notMem_cells hn.1 (by simp) (he ▸ hd)
    · rw [h.next_eq] at he
      exact hn.2.2 b hb b (List.mem_cons_of_mem _ (List.mem_of_mem_head? he)) rfl
  refine ⟨?_, path_append.2 ⟨hfront, ?_⟩, ?_⟩
  · exact h.nodup.sublist (List.Sublist.append_left (List.sublist_cons_self a l₂) l₁)
  · cases l₂ with
    | nil => trivial
    | cons b l₂ =>
      have hb := List.nodup_cons.1 (List.nodup_cons.1 hn.2.1).2
      have hnext : L.next a = some b := h.next_eq
      refine ⟨?_, ?_, ?_⟩
      · unfold Links.remove
        simp [hnext]
      · unfold Links.remove
        simp [hnext]
      · refine hp₂.2.2.congr (fun d hd => hread d ?_) fun x hx => hprev x ?_
        · rcases mem_cells hd with rfl | ⟨x, hx, rfl⟩
          · exact (hm b (by simp)).symm
          · exact (hm x (by simp [hx])).symm
        · rw [hnext]
          exact fun he => hb.1 (Option.some.inj he ▸ hx)
  · cases l₂ with
    | nil =>
      unfold Links.remove
      simp [show L.next a = none from h.next_eq]
    | cons b l₂ =>
      rw [Cell.after_append, Cell.after_cons, hread]
      · simpa using h.last
      · rw [Cell.after_eq]
        cases hl : l₂.getLast? with
        | none => exact (hm b (by simp)).symm
        | some z => exact (hm z (List.mem_cons_of_mem _ (List.mem_of_getLast? hl))).symm

theorem snoc (h : Tailq L l) (ha : a ∉ l) : Tailq (L.hang a (Cell.head.after l)) (l ++ [a]) := by
  have hne : Cell.head.after l ≠ .next a := Cell.after_ne_next ha (by simp)
  refine ⟨?_, path_append.2 ⟨h.path.congr (fun d hd => ?_) fun b hb => ?_, ?_, ?_, trivial⟩, ?_⟩
  · exact List.nodup_append.2 ⟨h.nodup, by simp, fun b hb x hx he => ha (by simp_all)⟩
  · have hd₁ : d ≠ Cell.head.after l := fun he => after_notMem_cells h.nodup (by simp) (he ▸ hd)
    have hd₂ : d ≠ .next a := by
      rcases mem_cells hd with rfl | ⟨b, hb, rfl⟩
      · simp
      · exact fun he => ha (Cell.next.inj he ▸ hb)
    simp [Links.hang, hd₁, hd₂]
  · simp [Links.hang, show b ≠ a from fun he => ha (he ▸ hb)]
  · simp [Links.hang, hne]
  · simp [Links.hang]
  · simp [Links.hang]

theorem cons (h : Tailq L l) (ha : a ∉ l) : Tailq (L.push a) (a :: l) := by
  have hread : ∀ d, d ≠ .head → d ≠ .next a → (L.push a).read d = L.read d := by
    intro d hd hda
    unfold Links.push
    cases L.first <;> simp [hd, hda]
  have hlink : (L.push a).read (.next a) = l.head? := by
    unfold Links.push
    rw [← h.first_eq]
    cases L.first <;> simp
  have hdown : ∀ b ∈ l, Cell.next b ≠ .next a := fun b hb he => ha (Cell.next.inj he ▸ hb)
  refine ⟨List.nodup_cons.2 ⟨ha, h.nodup⟩, ⟨by simp [Links.push], ?_, ?_⟩, ?_⟩
  · unfold Links.push
    cases hq : L.first with
    | none => simp
    | some q =>
      have hqa : a ≠ q := fun he => ha (he ▸ List.mem_of_mem_head? (h.first_eq.symm.trans hq))
      simp [hqa]
  · cases l with
    | nil => trivial
    | cons b l =>
      have hb := List.nodup_cons.1 h.nodup
      have hfirst : L.first = some b := h.first_eq
      refine ⟨hlink, ?_, h.path.2.2.congr (fun d hd => ?_) fun x hx => ?_⟩
      · simp [Links.push, hfirst]
      · rcases mem_cells hd with rfl | ⟨x, hx, rfl⟩
        · exact hread _ (by simp) (hdown b (by simp))
        · exact hread _ (by simp) (hdown x (by simp [hx]))
      · have hxa : x ≠ a := fun he => ha (by simp [← he, hx])
        have hxb : x ≠ b := fun he => hb.1 (he ▸ hx)
        simp [Links.push, hfirst, hxa, hxb]
  · cases l with
    | nil => exact hlink
    | cons b l =>
      have hlast := h.last
      rw [Cell.after_cons, Cell.after_cons, Cell.after_eq] at *
      cases hl : l.getLast? with
      | none =>
        rw [hl] at hlast
        exact (hread _ (by simp) (hdown b (by simp))).trans hlast
      | some z =>
        rw [hl] at hlast
        exact (hread _ (by simp) (hdown z (List.mem_cons_of_mem _ (List.mem_of_getLast? hl)))).trans hlast

end Tailq

end BsdKernel.Lib
