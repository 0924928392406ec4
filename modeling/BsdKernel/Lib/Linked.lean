import BsdKernel.Lib.Loop
import Mathlib.Data.List.Basic
import Mathlib.Logic.Function.Basic
/-!
# Lists linked through memory

`Linked next p l`: from the pointer `p` the links of `next` lead through `l` to a
null pointer. The list is determined by the links (`Linked.unique`), and a write
elsewhere does not change it (`Linked.congr`). A list that is led back to one of its elements has no end
(`Linked.no_end`). `scan` searches a list, and `sweep` walks over it with a pointer to the last
element that stays and unlinks those that do not (`Linked.scan`, `Linked.sweep`).
-/

namespace BsdKernel.Lib

variable {α : Type*} {next next' : α → Option α} {p : Option α} {l l' : List α}

def Linked (next : α → Option α) : Option α → List α → Prop
  | p, [] => p = none
  | p, a :: l => p = some a ∧ Linked next (next a) l

theorem Linked.unique (h : Linked next p l) (h' : Linked next p l') : l = l' := by
  induction l generalizing p l' with
  | nil =>
    cases l' with
    | nil => rfl
    | cons a l' => exact absurd (h.symm.trans h'.1) (by simp)
  | cons a l ih =>
    cases l' with
    | nil => exact absurd (h'.symm.trans h.1) (by simp)
    | cons b l' =>
      obtain rfl := Option.some.inj (h.1.symm.trans h'.1)
      rw [ih h.2 h'.2]

theorem Linked.congr (h : Linked next p l) (he : ∀ a ∈ l, next' a = next a) : Linked next' p l := by
  induction l generalizing p with
  | nil => exact h
  | cons a l ih =>
    refine ⟨h.1, ?_⟩
    rw [he a (by simp)]
    exact ih h.2 fun b hb => he b (by simp [hb])

theorem Linked.eq_nil_iff (h : Linked next p l) : l = [] ↔ p = none := by
  cases l with
  | nil => exact iff_of_true rfl h
  | cons a l => exact iff_of_false (by simp) (by simp [h.1])

variable [DecidableEq α]

theorem Linked.update (h : Linked next p l) {a : α} (ha : a ∉ l) (v : Option α) : Linked (Function.update next a v) p l :=
  h.congr fun _ hb => Function.update_of_ne (ne_of_mem_of_not_mem hb ha) v next

/-- An element linked behind the last one, with a null link of its own. -/
theorem Linked.snoc (h : Linked next p l) (hl : l.Nodup) {a z : α} (ha : a ∉ l) (hz : l.getLast? = some z) :
    Linked (Function.update (Function.update next z (some a)) a none) p (l ++ [a]) := by
  induction l generalizing p with
  | nil => simp at hz
  | cons b l ih =>
    have hba : b ≠ a := fun he => ha (by simp [he])
    refine ⟨h.1, ?_⟩
    rw [Function.update_of_ne hba]
    cases l with
    | nil =>
      obtain rfl : b = z := by simpa using hz
      rw [Function.update_self]
      refine ⟨rfl, ?_⟩
      rw [Function.update_self]
      rfl
    | cons c l =>
      have hbz : b ≠ z := by
        rintro rfl
        exact (List.nodup_cons.1 hl).1 (List.mem_of_getLast? (by simpa using hz))
      rw [Function.update_of_ne hbz]
      exact ih h.2 (List.nodup_cons.1 hl).2 (fun hm => ha (List.mem_cons_of_mem _ hm)) (by simpa using hz)

/-! ## Walks -/

section Walks
variable {first : Option α} {m : List α} {a : α} {n : Nat}

omit [DecidableEq α] in
theorem Linked.split (h : Linked next p l) (hm : Linked next' p (m ++ l')) (he : ∀ a ∈ m, next' a = next a) (hl : l'.head? = some a) :
    ∃ k, l = m ++ k ∧ Linked next (some a) k := by
  induction m generalizing p l with
  | nil =>
    cases l' with
    | nil => simp at hl
    | cons b l' =>
      obtain rfl : b = a := by simpa using hl
      exact ⟨l, rfl, hm.1 ▸ h⟩
  | cons b m ih =>
    cases l with
    | nil => exact absurd (h.symm.trans hm.1) (by simp)
    | cons c l =>
      obtain rfl := Option.some.inj (h.1.symm.trans hm.1)
      obtain ⟨k, rfl, hk⟩ := ih h.2 (he c (by simp) ▸ hm.2) (fun x hx => he x (by simp [hx]))
      exact ⟨k, rfl, hk⟩

theorem Linked.no_end (h : Linked next p l) (hl : l.Nodup) (ha : a ∈ l) : ¬∃ k, Linked (Function.update next a p) (some a) k := by
  rintro ⟨k, hk⟩
  obtain ⟨m, m', rfl⟩ := List.append_of_mem ha
  have ham : a ∉ m := by
    intro hm
    exact (List.nodup_append.1 hl).2.2 a hm a (by simp) rfl
  cases k with
  | nil => cases hk
  | cons b k =>
    obtain rfl := Option.some.inj hk.1
    have htail := hk.2
    rw [Function.update_self] at htail
    obtain ⟨k', rfl, hk'⟩ := htail.split h (fun x hx => (Function.update_of_ne (ne_of_mem_of_not_mem hx ham) p next).symm) rfl
    -- the same list again, behind one element at least
    have hlen := congrArg List.length (hk.unique hk')
    simp at hlen
    omega

/-- One round of a search from a pointer, for an element that meets the test. -/
def scanRound (next : α → Option α) (test : α → Bool) : Option α × Option α → (Option α × Option α) ⊕ (Option α × Option α)
  | (os, none) => .inr (os, none)
  | (os, some a) => if test a then .inr (os, some a) else .inl (some a, next a)

/-- The search, with the element before the one that it finds. -/
def scan (next : α → Option α) (test : α → Bool) (n : Nat) (p : Option α) : Option (Option α × Option α) :=
  loop (scanRound next test) n (none, p)

/-- A list without its element behind `os`, or without its first one: the link to it is overwritten by `v`. -/
def unlink (first : Option α) (next : α → Option α) (os v : Option α) : Option α × (α → Option α) :=
  match os with
  | none => (v, next)
  | some o => (first, Function.update next o v)

omit [DecidableEq α] in
theorem Linked.scan (h : Linked next p l) (test : α → Bool) (hn : l.length < n) :
    Lib.scan next test n p = some ((l.takeWhile fun a => !test a).getLast?, l.find? test) := by
  have hgen : ∀ (m : List α) (os : Option α), os = m.getLast? →
      loop (scanRound next test) n (os, p) = some ((m ++ l.takeWhile fun a => !test a).getLast?, l.find? test) := by
    induction l generalizing n p with
    | nil =>
      intro m os hos
      obtain ⟨n, rfl⟩ := Nat.exists_eq_succ_of_ne_zero (Nat.ne_of_gt (Nat.lt_of_le_of_lt (Nat.zero_le _) hn))
      rw [show p = none from h]
      simp [loop, scanRound, hos]
    | cons a l ih =>
      intro m os hos
      obtain ⟨n, rfl⟩ := Nat.exists_eq_succ_of_ne_zero (Nat.ne_of_gt (Nat.lt_of_le_of_lt (Nat.zero_le _) hn))
      rw [h.1]
      cases ht : test a with
      | true => simp [loop, scanRound, hos, ht]
      | false =>
        have hrest := ih h.2 (Nat.lt_of_succ_lt_succ hn) (m ++ [a]) (some a) (by simp)
        simp [loop, scanRound, ht, hrest]
  exact hgen [] none rfl

/-- Unlinking an element of a list. -/
theorem Linked.unlink (h : Linked next p (m ++ a :: l)) (hl : (m ++ a :: l).Nodup) :
    Linked (Lib.unlink p next m.getLast? (next a)).2 (Lib.unlink p next m.getLast? (next a)).1 (m ++ l) := by
  induction m generalizing p with
  | nil => exact h.2
  | cons b m ih =>
    have hb : b ∉ m ++ a :: l := (List.nodup_cons.1 hl).1
    cases m with
    | nil =>
      refine ⟨h.1, ?_⟩
      show Linked (Function.update next b (next a)) (Function.update next b (next a) b) l
      rw [Function.update_self]
      exact h.2.2.update (fun hm => hb (by simp [hm])) _
    | cons c m =>
      have hrec := ih h.2 (List.nodup_cons.1 hl).2
      obtain ⟨o, ho⟩ : ∃ o, (c :: m).getLast? = some o := ⟨_, List.getLast?_eq_some_getLast (List.cons_ne_nil c m)⟩
      have hbo : b ≠ o := by
        rintro rfl
        exact hb (List.mem_append_left _ (List.mem_of_getLast? ho))
      rw [List.getLast?_cons_cons, ho]
      rw [ho] at hrec
      refine ⟨h.1, ?_⟩
      show Linked (Function.update next o (next a)) (Function.update next o (next a) b) _
      rw [Function.update_of_ne hbo]
      exact hrec

/-- A walk over a list: its first pointer, the links, the last element that stays, and where it is. -/
structure Walk (α : Type*) where
  first : Option α
  next : α → Option α
  os : Option α
  ss : Option α

/-- One round of the walk, which unlinks an element that meets the test. -/
def sweepRound (test : α → Bool) (w : Walk α) : Walk α ⊕ (Option α × (α → Option α)) :=
  match w.ss with
  | none => .inr (w.first, w.next)
  | some a =>
    if test a then
      let (first, next) := Lib.unlink w.first w.next w.os (w.next a)
      .inl ⟨first, next, w.os, next a⟩
    else .inl ⟨w.first, w.next, some a, w.next a⟩

def sweep (test : α → Bool) (n : Nat) (first : Option α) (next : α → Option α) : Option (Option α × (α → Option α)) :=
  loop (sweepRound test) n ⟨first, next, none, first⟩

theorem unlink_of_notMem {v : Option α} {b : α} (h : b ∉ m) :
    (Lib.unlink first next m.getLast? v).2 b = next b := by
  unfold Lib.unlink
  cases ho : m.getLast? with
  | none => rfl
  | some o => exact Function.update_of_ne (ne_of_mem_of_not_mem (List.mem_of_getLast? ho) h).symm v next

/-- The walk leaves the elements that do not meet the test, and the links of what is not on the list. -/
theorem Linked.sweep (h : Linked next p l) (hl : l.Nodup) (test : α → Bool) (hn : l.length < n) :
    ∃ first next', Lib.sweep test n p next = some (first, next') ∧ Linked next' first (l.filter fun a => !test a) ∧
      ∀ b ∉ l, next' b = next b := by
  -- `m` is what has been kept, `l` what is to come
  have hgen : ∀ (l m : List α) (n : Nat) (first : Option α) (next : α → Option α) (ss : Option α),
      Linked next first (m ++ l) → Linked next ss l → (m ++ l).Nodup → l.length < n →
      ∃ first' next', loop (sweepRound test) n ⟨first, next, m.getLast?, ss⟩ = some (first', next') ∧
        Linked next' first' (m ++ l.filter fun a => !test a) ∧ ∀ b ∉ m ++ l, next' b = next b := by
    intro l
    induction l with
    | nil =>
      intro m n first next ss hall hrest _ hn
      obtain ⟨n, rfl⟩ := Nat.exists_eq_succ_of_ne_zero (Nat.ne_of_gt hn)
      rw [show ss = none from hrest]
      exact ⟨first, next, rfl, hall, fun _ _ => rfl⟩
    | cons a l ih =>
      intro m n first next ss hall hrest hnd hn
      obtain ⟨n, rfl⟩ := Nat.exists_eq_succ_of_ne_zero (Nat.ne_of_gt (Nat.lt_of_le_of_lt (Nat.zero_le _) hn))
      have hdisj := (List.nodup_append.1 hnd).2.2
      rw [hrest.1]
      cases ht : test a with
      | true =>
        have hkeep : ∀ b, b ∉ m → (Lib.unlink first next m.getLast? (next a)).2 b = next b := fun _ hb => unlink_of_notMem hb
        have ham : a ∉ m := fun hm => hdisj a hm a (by simp) rfl
        have hlink := hall.unlink hnd
        have htail : Linked (Lib.unlink first next m.getLast? (next a)).2 (next a) l :=
          hrest.2.congr fun b hb => hkeep b fun hm => hdisj b hm b (by simp [hb]) rfl
        obtain ⟨first', next', hrun, hlinked, hframe⟩ := ih m n _ _ _ hlink htail
          (hnd.sublist (List.Sublist.append_left (List.sublist_cons_self a l) m)) (Nat.lt_of_succ_lt_succ hn)
        refine ⟨first', next', ?_, by simpa [ht] using hlinked, fun b hb => ?_⟩
        · unfold loop
          simp only [sweepRound, ht, if_true, hkeep a ham]
          exact hrun
        · simp only [List.mem_append, List.mem_cons, not_or] at hb
          rw [hframe b (by simp [hb]), hkeep b hb.1]
      | false =>
        obtain ⟨first', next', hrun, hlinked, hframe⟩ := ih (m ++ [a]) n first next (next a)
          (by simpa using hall) hrest.2 (by simpa using hnd) (Nat.lt_of_succ_lt_succ hn)
        refine ⟨first', next', ?_, by simpa [ht] using hlinked, fun b hb => hframe b (by simpa using hb)⟩
        unfold loop
        simp only [sweepRound, ht, Bool.false_eq_true, if_false]
        simpa using hrun
  exact hgen l [] n p next p h h hl hn

end Walks

end BsdKernel.Lib
