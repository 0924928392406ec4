import BsdKernel.Kern.Vnode
import Mathlib.Tactic
/-!
# Runs of the vnode free list

Each call keeps `Inv`, the code's list and counts being the table's, in the steps that
are `Safe`; in any other step the code stops or its counts no longer say which vnodes are
on the list.
-/

namespace BsdKernel.Vnode

open BsdKernel.Lib

set_option linter.unusedSectionVars false

variable {V : Type} [DecidableEq V] {s : Vnodes V} {a : Table V} {v : V}

/-- The invariant of the runs. -/
structure Inv (s : Vnodes V) (a : Table V) : Prop where
  queue : Tailq s.links a.free
  tail : s.vfreet = if a.released then some (Cell.head.after a.free) else none
  known : ∀ v ∈ a.free, v ∈ a.vnodes
  free : ∀ v ∈ a.vnodes, v ∈ a.free ↔ a.refs v = 0
  counts : ∀ v ∈ a.vnodes, s.usecount v = BitVec.ofNat 16 (a.refs v)
  bounded : ∀ v ∈ a.vnodes, a.refs v < 2 ^ 16
  off : ∀ v ∈ a.vnodes, v ∉ a.free → s.freeb v = none
  num : s.numvnodes = a.vnodes.length
  locked : s.vxlock = a.locked
  writers : s.writecount = a.writers
  released : a.free ≠ [] → a.released = true

theorem Inv.boot : Inv (Vnodes.boot V) (Table.boot V) where
  queue := ⟨List.nodup_nil, trivial, rfl⟩
  tail := rfl
  known := by simp [Table.boot]
  free := by simp [Table.boot]
  counts := by simp [Table.boot]
  bounded := by simp [Table.boot]
  off := by simp [Table.boot]
  num := rfl
  locked := rfl
  writers := rfl
  released := by simp [Table.boot]

namespace Inv
variable (hI : Inv s a)
include hI

theorem congrTable {a' : Table V} (h : a = a') : Inv s a' := h ▸ hI

theorem usecount_eq_zero (hv : v ∈ a.vnodes) : s.usecount v = 0 ↔ a.refs v = 0 := by
  have hb := hI.bounded v hv
  rw [hI.counts v hv, ← BitVec.toNat_inj]
  simp only [BitVec.toNat_ofNat, BitVec.ofNat_eq_ofNat]
  omega

theorem freeList : FreeList s a :=
  ⟨hI.queue, hI.tail, hI.known, fun v hv => (hI.free v hv).trans (hI.usecount_eq_zero hv).symm⟩

theorem refs_free (hv : v ∈ a.free) : a.refs v = 0 := (hI.free v (hI.known v hv)).1 hv

theorem tail_eq (hv : v ∈ a.free) : s.vfreet = some (Cell.head.after a.free) := by
  rw [hI.tail, if_pos (hI.released (List.ne_nil_of_mem hv))]

end Inv

/-! ## The list -/

namespace Vnodes

/-- The vnodes with other links. -/
def withLinks (s : Vnodes V) (L : Links V) (t : Option (Cell V)) : Vnodes V :=
  { s with vfreeh := L.first, freef := L.next, freeb := L.prev, vfreet := t }

theorem store_eq (s : Vnodes V) (c : Cell V) (p : Option V) :
    s.store (some c) p = .ok (s.withLinks (s.links.write c p) s.vfreet) := by
  cases c <;> rfl

theorem unlink_eq {l₁ l₂ : List V} (hq : Tailq s.links (l₁ ++ v :: l₂))
    (ht : s.vfreet = some (Cell.head.after (l₁ ++ v :: l₂))) :
    s.unlink v = .ok (s.withLinks (s.links.remove v (Cell.head.after l₁)) (some (Cell.head.after (l₁ ++ l₂)))) := by
  have hprev : s.freeb v = some (Cell.head.after l₁) := hq.prev_eq
  have hnext : s.freef v = l₂.head? := hq.next_eq
  unfold unlink Links.remove
  rw [hnext]
  cases l₂ with
  | nil =>
    have hlink : s.links.next v = none := hnext
    simp only [List.head?_nil, hprev, hlink, store_eq, List.append_nil]
    rfl
  | cons q l₂ =>
    have hlink : s.links.next v = some q := hnext
    have hvq : v ≠ q := fun he => by
      have := (List.nodup_append.1 hq.nodup).2.1
      simp [he] at this
    simp only [List.head?_cons, hlink, Function.update_of_ne hvq, hprev, store_eq, ht]
    simp only [Cell.after_append, Cell.after_cons]
    rfl

theorem takeHead_eq {l : List V} (hq : Tailq s.links (v :: l)) (ht : s.vfreet = some (Cell.head.after (v :: l))) :
    s.takeHead v = (s.withLinks (s.links.remove v .head) (some (Cell.head.after l))).clear v := by
  have hnext : s.freef v = l.head? := @Tailq.next_eq _ _ [] l v hq
  unfold takeHead Links.remove
  rw [hnext]
  cases l with
  | nil =>
    have hlink : s.links.next v = none := hnext
    simp only [List.head?_nil, hlink]
    rfl
  | cons q l =>
    have hlink : s.links.next v = some q := hnext
    simp only [List.head?_cons, hlink]
    have hsame : Cell.head.after (v :: q :: l) = Cell.head.after (q :: l) := rfl
    unfold withLinks
    rw [ht, hsame]
    rfl

theorem tailq_clear {l : List V} (hq : Tailq s.links l) (hv : v ∉ l) : Tailq (s.clear v).links l :=
  hq.congr rfl (fun _ hw => Function.update_of_ne (ne_of_mem_of_not_mem hw hv) _ _)
    fun _ hw => Function.update_of_ne (ne_of_mem_of_not_mem hw hv) _ _

theorem insertTail_eq {l : List V} (hq : Tailq s.links l) (ht : l ≠ [] → s.vfreet = some (Cell.head.after l)) :
    (fun s : Vnodes V => { s with freef := Function.update s.freef v none, vfreet := some (.next v) }) <$> s.insertTail v =
      .ok (s.withLinks (s.links.hang v (Cell.head.after l)) (some (.next v))) := by
  have hfirst : s.vfreeh = l.head? := hq.first_eq
  unfold insertTail
  rw [hfirst]
  cases l with
  | nil => rfl
  | cons q l =>
    have hstore := s.store_eq (Cell.head.after (q :: l)) (some v)
    simp only [List.head?_cons, ht (by simp), hstore]
    rfl

theorem moveToHead_eq {l₁ l₂ : List V} (hq : Tailq s.links (l₁ ++ v :: l₂))
    (ht : s.vfreet = some (Cell.head.after (l₁ ++ v :: l₂))) (hne : l₁ ++ l₂ ≠ []) :
    s.moveToHead v = .ok (s.withLinks ((s.links.remove v (Cell.head.after l₁)).push v)
      (some (Cell.head.after (l₁ ++ l₂)))) := by
  have hfirst := hq.remove.first_eq
  obtain ⟨q, hhead⟩ : ∃ q, (l₁ ++ l₂).head? = some q := by
    cases hl : l₁ ++ l₂ with
    | nil => exact absurd hl hne
    | cons q l => exact ⟨q, rfl⟩
  rw [hhead] at hfirst
  unfold moveToHead Links.push
  simp only [unlink_eq hq ht, hfirst, withLinks, bind, Except.bind]
  rfl

theorem moveToHead_alone (hq : Tailq s.links [v]) (ht : s.vfreet = some (Cell.head.after [v])) :
    s.moveToHead v = .error .nullPointer := by
  have hfirst := (@Tailq.remove _ _ [] [] v _ hq).first_eq
  unfold moveToHead
  have hunlink := @unlink_eq _ _ s v [] [] hq ht
  simp only [List.nil_append] at hunlink
  simp only [hunlink, withLinks, bind, Except.bind]
  have hnone : (s.links.remove v (Cell.head.after [])).first = none := hfirst
  rw [hnone]
  rfl

end Vnodes

/-! ## The count -/

theorem toInt_pos {n : Nat} (h : n < 2 ^ 16) : 0 < (BitVec.ofNat 16 n).toInt ↔ 0 < n ∧ n < 2 ^ 15 := by
  rw [BitVec.toInt_eq_toNat_cond, BitVec.toNat_ofNat, Nat.mod_eq_of_lt h]
  split <;> omega

theorem ofNat_ne_zero {n : Nat} (h : n < 2 ^ 16) (h0 : 0 < n) : BitVec.ofNat 16 n ≠ 0 := by
  intro he
  have := congrArg BitVec.toNat he
  simp only [BitVec.toNat_ofNat, BitVec.ofNat_eq_ofNat] at this
  omega

namespace Vnodes

theorem vclean_eq (hx : s.vxlock v = false) (hu : s.usecount v = 0 ∨ 0 < (s.usecount v).toInt) : s.vclean v = .ok s := by
  have hlock : Function.update (Function.update s.vxlock v true) v false = s.vxlock := by
    rw [Function.update_idem, ← hx, Function.update_eq_self]
  unfold vclean
  rcases hu with hu | hu
  · simp only [hu, ne_eq, not_true_eq_false, if_false, hx]
    simp only [bind, Except.bind, pure, Except.pure, hlock]
    rfl
  · have hne : s.usecount v ≠ 0 := fun he => by simp [he] at hu
    have hback : Function.update (Function.update s.usecount v (s.usecount v + 1)) v (s.usecount v) = s.usecount := by
      rw [Function.update_idem, Function.update_eq_self]
    simp only [if_pos hne, vref, hx, vrele, Function.update_self, BitVec.add_sub_cancel, if_pos hu, hback]
    simp only [bind, Except.bind, pure, Except.pure, hlock]
    rfl

theorem vgone_off (hb : s.freeb v = none) (hu : s.usecount v = 0) : ∃ b, s.vgone v = .ok { s with vbad := b } := by
  unfold vgone
  cases hx : s.vxlock v with
  | true => exact ⟨s.vbad, rfl⟩
  | false =>
    refine ⟨Function.update s.vbad v true, ?_⟩
    simp only [Bool.false_eq_true, if_false, vclean_eq hx (Or.inl hu), bind, Except.bind, hb]
    rfl

/-- A count that a `short` does not hold stops the kernel. -/
theorem vclean_overflow (hx : s.vxlock v = false) (hne : s.usecount v ≠ 0) (hu : ¬0 < (s.usecount v).toInt) :
    s.vclean v = .error (.panic "vrele: ref cnt") := by
  unfold vclean
  simp only [if_pos hne, vref, hx, vrele, Function.update_self, BitVec.add_sub_cancel, if_neg hu]
  rw [if_pos (Or.inl hne)]
  rfl

end Vnodes

/-! ## The calls -/

namespace Inv
variable (hI : Inv s a)
include hI

/-- A count that goes from one positive value to another. -/
theorem setRefs (hv : v ∈ a.vnodes) (h0 : a.refs v ≠ 0) {n : Nat} (hn : n ≠ 0) (hb : n < 2 ^ 16) :
    Inv { s with usecount := Function.update s.usecount v (BitVec.ofNat 16 n) } (a.setRefs v n) where
  queue := hI.queue
  tail := hI.tail
  known := hI.known
  free := fun w hw => by
    by_cases he : w = v
    · subst he
      simpa [Table.setRefs, hn] using fun hf => h0 (hI.refs_free hf)
    · simpa [Table.setRefs, he] using hI.free w hw
  counts := fun w hw => by
    by_cases he : w = v
    · simp [Table.setRefs, he]
    · simpa [Table.setRefs, he] using hI.counts w hw
  bounded := fun w hw => by
    by_cases he : w = v
    · simpa [Table.setRefs, he] using hb
    · simpa [Table.setRefs, he] using hI.bounded w hw
  off := hI.off
  num := hI.num
  locked := hI.locked
  writers := hI.writers
  released := hI.released

theorem vref (hv : v ∈ a.vnodes) (h0 : a.refs v ≠ 0) (hb : a.refs v < 2 ^ 16 - 1) :
    Inv (s.vref v) (a.setRefs v (a.refs v + 1)) := by
  have h := hI.setRefs hv h0 (Nat.succ_ne_zero (a.refs v)) (by omega)
  unfold Vnodes.vref
  rw [hI.counts v hv]
  rwa [Nat.succ_eq_add_one, BitVec.ofNat_add] at h

/-- The list without `v`, as `vget` leaves it, and the reference of its new user. -/
theorem taken {l₁ l₂ : List V} (hl : a.free = l₁ ++ v :: l₂) (t : Option (Cell V))
    (ht : t = some (Cell.head.after (l₁ ++ l₂))) (b : V → Bool) {x y : V → Bool} (hx : x = y) :
    Inv { ((s.withLinks (s.links.remove v (Cell.head.after l₁)) t).clear v).vref v with vxlock := x, vbad := b }
      { a.setRefs v 1 with free := l₁ ++ l₂, locked := y } := by
  have hvf : v ∈ a.free := by simp [hl]
  have hv := hI.known v hvf
  have hq : Tailq s.links (l₁ ++ v :: l₂) := hl ▸ hI.queue
  have hnot : v ∉ l₁ ++ l₂ := by
    have := hq.nodup
    rw [List.nodup_middle] at this
    exact (List.nodup_cons.1 this).1
  have hmem : ∀ w, w ≠ v → (w ∈ l₁ ++ l₂ ↔ w ∈ a.free) := by
    intro w hw
    simp [hl, hw]
  exact {
    queue := Vnodes.tailq_clear (s := s.withLinks _ t) hq.remove hnot
    tail := ht.trans (if_pos (hI.released (List.ne_nil_of_mem hvf))).symm
    known := fun w hw => hI.known w (by
      have : w ≠ v := fun he => hnot (he ▸ hw)
      exact (hmem w this).1 hw)
    free := fun w hw => by
      by_cases he : w = v
      · subst he
        simpa [Table.setRefs] using hnot
      · simpa [Table.setRefs, he] using (hmem w he).trans (hI.free w hw)
    counts := fun w hw => by
      by_cases he : w = v
      · subst he
        have h0 : s.usecount w = 0 := (hI.usecount_eq_zero hv).2 (hI.refs_free hvf)
        simp [Table.setRefs, Vnodes.vref, Vnodes.clear, Vnodes.withLinks, h0]
      · simpa [Table.setRefs, Vnodes.vref, Vnodes.clear, Vnodes.withLinks, he] using hI.counts w hw
    bounded := fun w hw => by
      by_cases he : w = v
      · simp [Table.setRefs, he]
      · simpa [Table.setRefs, he] using hI.bounded w hw
    off := fun w hw hf => by
      by_cases he : w = v
      · simp [he, Vnodes.vref, Vnodes.clear]
      · have hwf : w ∉ a.free := fun h => hf ((hmem w he).2 h)
        have hnext : s.links.next v ≠ some w := by
          rw [hq.next_eq]
          intro hh
          exact hwf (by simp [hl, List.mem_of_mem_head? hh])
        have hprev := s.links.prev_remove (Cell.head.after l₁) hnext
        have hoff : s.links.prev w = none := hI.off w hw hwf
        simp [Vnodes.vref, Vnodes.clear, Vnodes.withLinks, he, hprev, hoff]
    num := hI.num
    locked := hx
    writers := hI.writers
    released := fun _ => hI.released (List.ne_nil_of_mem hvf) }

theorem vget (hv : v ∈ a.vnodes) (hok : a.locked v = false → a.refs v < 2 ^ 16 - 1) (d : Nat) :
    ∃ s', s.step d (.vget v) = .ok s' ∧ Inv s' (a.step d (.vget v)) := by
  simp only [Vnodes.step, Table.step, Vnodes.vget, hI.locked]
  cases hx : a.locked v with
  | true => exact ⟨s, rfl, hI⟩
  | false =>
    by_cases hf : v ∈ a.free
    · obtain ⟨l₁, l₂, hl⟩ := List.mem_iff_append.1 hf
      have hq : Tailq s.links (l₁ ++ v :: l₂) := hl ▸ hI.queue
      have ht := hI.tail_eq hf
      rw [hl] at ht
      have h0 : s.usecount v = 0 := (hI.usecount_eq_zero hv).2 (hI.refs_free hf)
      have herase : a.free.erase v = l₁ ++ l₂ := by
        have hnd := hq.nodup
        rw [List.nodup_append] at hnd
        rw [hl, List.erase_append_right _ fun h => hnd.2.2 v h v (by simp) rfl, List.erase_cons_head]
      refine ⟨((s.withLinks (s.links.remove v (Cell.head.after l₁)) (some (Cell.head.after (l₁ ++ l₂)))).clear v).vref v,
        ?_, ?_⟩
      · simp only [h0, if_true, Vnodes.unlink_eq hq ht]
        rfl
      · have h := hI.taken hl _ rfl s.vbad hI.locked
        simp only [Bool.false_eq_true, if_false, herase, hI.refs_free hf]
        exact h
    · have h0 : a.refs v ≠ 0 := fun h => hf ((hI.free v hv).2 h)
      have hu : s.usecount v ≠ 0 := fun h => h0 ((hI.usecount_eq_zero hv).1 h)
      refine ⟨s.vref v, ?_, ?_⟩
      · simp only [if_neg hu]
        rfl
      · have h := hI.vref hv h0 (hok hx)
        simpa [List.erase_of_not_mem hf, Table.setRefs] using h

theorem vrele_many (hv : v ∈ a.vnodes) (h1 : 1 < a.refs v) (hok : a.refs v ≤ 2 ^ 15) :
    ∃ s', s.vrele v = .ok s' ∧ Inv s' (a.release v) := by
  have hcount : s.usecount v - 1 = BitVec.ofNat 16 (a.refs v - 1) := by
    obtain ⟨n, hn⟩ := Nat.exists_eq_add_of_lt h1
    rw [hI.counts v hv, hn, BitVec.ofNat_add, Nat.add_sub_cancel]
    exact BitVec.add_sub_cancel _ _
  have h := hI.setRefs hv (n := a.refs v - 1) (by omega) (by omega) (by omega)
  refine ⟨{ s with usecount := Function.update s.usecount v (BitVec.ofNat 16 (a.refs v - 1)) }, ?_, ?_⟩
  · unfold Vnodes.vrele
    simp only [Function.update_self, hcount]
    rw [if_pos ((toInt_pos (by omega)).2 (by omega))]
    rfl
  · unfold Table.release
    rwa [if_neg (by omega)]

/-- `vrele` of the last reference. -/
theorem vrele_last (hv : v ∈ a.vnodes) (h1 : a.refs v = 1) (hw : a.writers v = 0) :
    ∃ s', s.vrele v = .ok s' ∧ Inv s' (a.release v) := by
  have hf : v ∉ a.free := fun h => by simp [hI.refs_free h] at h1
  have hu : s.usecount v - 1 = 0 := by
    rw [hI.counts v hv, h1]
    rfl
  have hinsert := Vnodes.insertTail_eq (s := { s with usecount := Function.update s.usecount v 0 }) (v := v) hI.queue
    (fun h => hI.tail.trans (if_pos (hI.released h)))
  refine ⟨{ s with usecount := Function.update s.usecount v 0 }.withLinks
    (s.links.hang v (Cell.head.after a.free)) (some (.next v)), ?_, ?_⟩
  · unfold Vnodes.vrele
    have hwc : s.writecount v = 0 := by rw [hI.writers, hw]
    simp only [Function.update_self, hu]
    rw [if_neg (by decide), if_neg (by simp [hwc])]
    exact hinsert
  · unfold Table.release
    rw [if_pos h1]
    exact {
      queue := hI.queue.snoc hf
      tail := by simp [Vnodes.withLinks]
      known := fun w hw => by
        rcases List.mem_append.1 hw with hw | hw
        · exact hI.known w hw
        · rw [List.mem_singleton.1 hw]
          exact hv
      free := fun w hw => by
        by_cases he : w = v
        · simp [he, Table.setRefs]
        · simpa [he, Table.setRefs] using hI.free w hw
      counts := fun w hw => by
        by_cases he : w = v
        · simp [he, Table.setRefs, Vnodes.withLinks]
        · simpa [he, Table.setRefs, Vnodes.withLinks] using hI.counts w hw
      bounded := fun w hw => by
        by_cases he : w = v
        · simp [he, Table.setRefs]
        · simpa [he, Table.setRefs] using hI.bounded w hw
      off := fun w hw hwf => by
        have hwv : w ≠ v := fun he => hwf (by simp [he])
        have hoff : s.links.prev w = none := hI.off w hw fun h => hwf (by simp [h])
        exact (s.links.prev_hang _ hwv).trans hoff
      num := hI.num
      locked := hI.locked
      writers := hI.writers
      released := fun _ => rfl }

theorem vrele (hv : v ∈ a.vnodes) (h0 : 0 < a.refs v) (hw : a.refs v = 1 → a.writers v = 0) (hok : a.refs v ≤ 2 ^ 15) :
    ∃ s', s.vrele v = .ok s' ∧ Inv s' (a.release v) := by
  rcases Nat.lt_or_ge 1 (a.refs v) with h1 | h1
  · exact hI.vrele_many hv h1 hok
  · exact hI.vrele_last hv (by omega) (hw (by omega))

/-- `v` moved to the head of the list. -/
theorem moved {l₁ l₂ : List V} (hl : a.free = l₁ ++ v :: l₂) (hne : l₁ ++ l₂ ≠ []) (b : V → Bool) :
    Inv { s.withLinks ((s.links.remove v (Cell.head.after l₁)).push v) (some (Cell.head.after (l₁ ++ l₂))) with vbad := b }
      { a with free := v :: (l₁ ++ l₂) } := by
  have hvf : v ∈ a.free := by simp [hl]
  have hq : Tailq s.links (l₁ ++ v :: l₂) := hl ▸ hI.queue
  have hnot : v ∉ l₁ ++ l₂ := by
    have := hq.nodup
    rw [List.nodup_middle] at this
    exact (List.nodup_cons.1 this).1
  have hmem : ∀ w, w ∈ v :: (l₁ ++ l₂) ↔ w ∈ a.free := by
    intro w
    rw [hl]
    exact List.perm_middle.symm.mem_iff
  exact {
    queue := hq.remove.cons hnot
    tail := by
      show some _ = _
      rw [if_pos (hI.released (List.ne_nil_of_mem hvf))]
      cases hm : l₁ ++ l₂ with
      | nil => exact absurd hm hne
      | cons q m => rfl
    known := fun w hw => hI.known w ((hmem w).1 hw)
    free := fun w hw => (hmem w).trans (hI.free w hw)
    counts := hI.counts
    bounded := hI.bounded
    off := fun w hw hwf => by
      have hwf' : w ∉ a.free := fun h => hwf ((hmem w).2 h)
      have hfirst : (s.links.remove v (Cell.head.after l₁)).first ≠ some w := by
        rw [hq.remove.first_eq]
        exact fun h => hwf (List.mem_cons_of_mem _ (List.mem_of_mem_head? h))
      have hnext : s.links.next v ≠ some w := by
        rw [hq.next_eq]
        exact fun h => hwf' (by simp [hl, List.mem_of_mem_head? h])
      have hwv : w ≠ v := fun he => hwf (by simp [he])
      have hoff : s.links.prev w = none := hI.off w hw hwf'
      exact ((Links.prev_push _ hwv hfirst).trans (Links.prev_remove _ _ hnext)).trans hoff
    num := hI.num
    locked := hI.locked
    writers := hI.writers
    released := fun _ => hI.released (List.ne_nil_of_mem hvf) }

theorem setBad (b : V → Bool) : Inv { s with vbad := b } a :=
  ⟨hI.queue, hI.tail, hI.known, hI.free, hI.counts, hI.bounded, hI.off, hI.num, hI.locked, hI.writers, hI.released⟩

theorem vgone (hv : v ∈ a.vnodes) (hok : a.locked v = false → a.free ≠ [v] ∧ a.refs v < 2 ^ 15) (d : Nat) :
    ∃ s', s.vgone v = .ok s' ∧ Inv s' (a.step d (.vgone v)) := by
  have hlocked : s.vxlock v = a.locked v := by rw [hI.locked]
  simp only [Table.step, Vnodes.vgone]
  cases hx : a.locked v with
  | true => exact ⟨s, by rw [hlocked, hx]; rfl, hI⟩
  | false =>
    have hok := hok hx
    rw [hx] at hlocked
    by_cases hf : v ∈ a.free
    · obtain ⟨l₁, l₂, hl⟩ := List.mem_iff_append.1 hf
      have hq : Tailq s.links (l₁ ++ v :: l₂) := hl ▸ hI.queue
      have ht := hI.tail_eq hf
      rw [hl] at ht
      have hne : l₁ ++ l₂ ≠ [] := fun h => by
        obtain ⟨rfl, rfl⟩ := List.append_eq_nil_iff.1 h
        exact hok.1 hl
      have hprev : (s.freeb v).isSome := by
        rw [show s.freeb v = _ from hq.prev_eq]
        rfl
      have herase : a.free.erase v = l₁ ++ l₂ := by
        have hnd := hq.nodup
        rw [List.nodup_append] at hnd
        rw [hl, List.erase_append_right _ fun h => hnd.2.2 v h v (by simp) rfl, List.erase_cons_head]
      have hclean := Vnodes.vclean_eq hlocked (Or.inl ((hI.usecount_eq_zero hv).2 (hI.refs_free hf)))
      refine ⟨_, ?_, hI.moved hl hne (Function.update s.vbad v true) |>.congrTable ?_⟩
      · simp only [hlocked, hclean, bind, Except.bind]
        rw [if_pos hprev, Vnodes.moveToHead_eq hq ht hne]
        rfl
      · simp [hf, herase]
    · have h0 : a.refs v ≠ 0 := fun h => hf ((hI.free v hv).2 h)
      have hpos : 0 < (s.usecount v).toInt := by
        rw [hI.counts v hv]
        exact (toInt_pos (hI.bounded v hv)).2 ⟨Nat.pos_of_ne_zero h0, hok.2⟩
      refine ⟨{ s with vbad := Function.update s.vbad v true }, ?_, ?_⟩
      · simp only [hlocked, Vnodes.vclean_eq hlocked (Or.inr hpos), bind, Except.bind]
        rw [hI.off v hv hf]
        rfl
      · simpa [hf] using hI.setBad _

/-- A vnode from `malloc`. -/
theorem fresh {new : V} (hn : new ∉ a.vnodes) :
    Inv ((s.fresh new).vref new) { a.setRefs new 1 with
      vnodes := new :: a.vnodes
      locked := Function.update a.locked new false
      writers := Function.update a.writers new 0 } := by
  have hnf : new ∉ a.free := fun h => hn (hI.known new h)
  have hne : ∀ w ∈ a.vnodes, w ≠ new := fun w hw he => hn (he ▸ hw)
  exact {
    queue := hI.queue.congr rfl (fun w hw => Function.update_of_ne (hne w (hI.known w hw)) _ _)
      fun w hw => Function.update_of_ne (hne w (hI.known w hw)) _ _
    tail := hI.tail
    known := fun w hw => List.mem_cons_of_mem _ (hI.known w hw)
    free := fun w hw => by
      rcases List.mem_cons.1 hw with rfl | hw
      · simpa [Table.setRefs] using hnf
      · simpa [Table.setRefs, hne w hw] using hI.free w hw
    counts := fun w hw => by
      rcases List.mem_cons.1 hw with rfl | hw
      · simp [Table.setRefs, Vnodes.vref, Vnodes.fresh]
      · simpa [Table.setRefs, Vnodes.vref, Vnodes.fresh, hne w hw] using hI.counts w hw
    bounded := fun w hw => by
      rcases List.mem_cons.1 hw with rfl | hw
      · simp [Table.setRefs]
      · simpa [Table.setRefs, hne w hw] using hI.bounded w hw
    off := fun w hw hf => by
      rcases List.mem_cons.1 hw with rfl | hw
      · simp [Vnodes.vref, Vnodes.fresh]
      · simpa [Vnodes.vref, Vnodes.fresh, hne w hw] using hI.off w hw hf
    num := by simp [Vnodes.vref, Vnodes.fresh, hI.num]
    locked := by simp [Vnodes.vref, Vnodes.fresh, hI.locked]
    writers := by simp [Vnodes.vref, Vnodes.fresh, hI.writers]
    released := hI.released }

theorem getnewvnode {new : V} (hn : new ∉ a.vnodes) (d : Nat) :
    ∃ s', s.step d (.getnewvnode new) = .ok s' ∧ Inv s' (a.step d (.getnewvnode new)) := by
  simp only [Vnodes.step, Table.step, Vnodes.getnewvnode, hI.num]
  by_cases hlt : a.vnodes.length < d
  · rw [if_pos hlt, if_pos hlt]
    exact ⟨_, rfl, hI.fresh hn⟩
  · rw [if_neg hlt, if_neg hlt]
    have hfirst : s.vfreeh = a.free.head? := hI.queue.first_eq
    cases hl : a.free with
    | nil =>
      rw [hl] at hfirst
      rw [hfirst]
      exact ⟨s, rfl, hI⟩
    | cons v l =>
      rw [hl] at hfirst
      have hf : v ∈ a.free := by simp [hl]
      have hv := hI.known v hf
      have hu : s.usecount v = 0 := (hI.usecount_eq_zero hv).2 (hI.refs_free hf)
      have ht := hI.tail_eq hf
      have hq : Tailq s.links (v :: l) := hl ▸ hI.queue
      rw [hl] at ht
      have hhead := Vnodes.takeHead_eq hq ht
      have hlock : Function.update s.vxlock v false = Function.update a.locked v false := by rw [hI.locked]
      have htaken := fun b => @taken _ _ _ _ v hI [] l hl _ rfl (Function.update b v false) _ _ hlock
      rw [hfirst]
      simp only [List.head?_cons, hu, ne_eq, not_true_eq_false, if_false]
      cases hbad : (s.takeHead v).vbad v with
      | true =>
        refine ⟨_, ?_, htaken (s.takeHead v).vbad⟩
        simp only [if_true, bind, Except.bind]
        rw [hhead]
        rfl
      | false =>
        obtain ⟨b, hgone⟩ := Vnodes.vgone_off (s := s.takeHead v) (v := v) (by simp [Vnodes.takeHead, Vnodes.clear])
          (by rw [hhead]; exact hu)
        refine ⟨_, ?_, htaken b⟩
        simp only [Bool.false_eq_true, if_false, hgone, bind, Except.bind]
        rw [hhead]
        rfl

theorem other (x b : Bool) (w : BitVec 16) (d : Nat) :
    ∃ s', s.step d (.other v x b w) = .ok s' ∧ Inv s' (a.step d (.other v x b w)) := by
  refine ⟨_, rfl, ⟨hI.queue, hI.tail, hI.known, hI.free, hI.counts, hI.bounded, hI.off, hI.num, ?_, ?_, hI.released⟩⟩
  · simp [Table.step, hI.locked]
  · simp [Table.step, hI.writers]

theorem vrele_overflow (hv : v ∈ a.vnodes) (hbad : ¬a.refs v ≤ 2 ^ 15) : ∀ s', s.vrele v ≠ .ok s' := by
  intro s'
  have hb := hI.bounded v hv
  have hcount : s.usecount v - 1 = BitVec.ofNat 16 (a.refs v - 1) := by
    obtain ⟨n, hn⟩ := Nat.exists_eq_add_of_lt (show 0 < a.refs v by omega)
    rw [hI.counts v hv, hn, BitVec.ofNat_add, Nat.add_sub_cancel]
    exact BitVec.add_sub_cancel _ _
  have hneg : ¬0 < (BitVec.ofNat 16 (a.refs v - 1)).toInt := by
    rw [toInt_pos (by omega)]
    omega
  unfold Vnodes.vrele
  simp only [Function.update_self, hcount, if_neg hneg]
  rw [if_pos (Or.inl (ofNat_ne_zero (by omega) (by omega)))]
  exact nofun

theorem vgone_stops (hv : v ∈ a.vnodes) (hbad : ¬(a.locked v = false → a.free ≠ [v] ∧ a.refs v < 2 ^ 15)) :
    ∀ s', s.vgone v ≠ .ok s' := by
  intro s'
  simp only [Classical.not_imp, not_and_or, not_not] at hbad
  have hx : s.vxlock v = false := by rw [hI.locked, hbad.1]
  unfold Vnodes.vgone
  simp only [hx, Bool.false_eq_true, if_false]
  rcases hbad.2 with hl | hr
  · have hf : v ∈ a.free := by simp [hl]
    have ht := hI.tail_eq hf
    have hq : Tailq s.links [v] := hl ▸ hI.queue
    rw [hl] at ht
    have hprev : (s.freeb v).isSome := by
      rw [show s.freeb v = _ from @Tailq.prev_eq _ _ [] [] v hq]
      rfl
    have hclean := Vnodes.vclean_eq hx (Or.inl ((hI.usecount_eq_zero hv).2 (hI.refs_free hf)))
    simp only [hclean, bind, Except.bind, if_pos hprev, Vnodes.moveToHead_alone hq ht]
    exact nofun
  · have hne : s.usecount v ≠ 0 := fun h => by
      have := (hI.usecount_eq_zero hv).1 h
      omega
    have hneg : ¬0 < (s.usecount v).toInt := by
      rw [hI.counts v hv, toInt_pos (hI.bounded v hv)]
      omega
    simp only [Vnodes.vclean_overflow hx hne hneg, bind, Except.bind]
    exact nofun

theorem step {d : Nat} {op : Op V} (hal : a.Allowed op) (hok : a.Safe op) :
    ∃ s', s.step d op = .ok s' ∧ Inv s' (a.step d op) := by
  cases op with
  | getnewvnode new => exact hI.getnewvnode hal d
  | vget v => exact hI.vget hal hok d
  | vref v => exact ⟨_, rfl, hI.vref hal.1 hal.2.ne' hok⟩
  | vrele v => exact hI.vrele hal.1 hal.2.1 hal.2.2 hok
  | vput v => exact hI.vrele hal.1 hal.2.1 hal.2.2 hok
  | vgone v => exact hI.vgone hal hok d
  | other v x b w => exact hI.other x b w d

end Inv

/-! ## Runs -/

/-- After a step that is not safe the code has stopped, or a vnode whose count has come
round to 0 is not on the list. -/
theorem Inv.not_freeList (hI : Inv s a) {d : Nat} {op : Op V} (hal : a.Allowed op) (hbad : ¬a.Safe op) :
    ∀ s', s.step d op = .ok s' → ¬FreeList s' (a.step d op) := by
  have hround : ∀ v ∈ a.vnodes, ¬a.refs v < 2 ^ 16 - 1 → v ∉ a.free ∧ s.usecount v + 1 = 0 := by
    intro v hv hr
    have hb := hI.bounded v hv
    refine ⟨fun hf => by simp [hI.refs_free hf] at hr, ?_⟩
    rw [hI.counts v hv, show a.refs v = 2 ^ 16 - 1 by omega]
    rfl
  intro s' hs' hF
  cases op with
  | getnewvnode new => exact hbad trivial
  | other v x b w => exact hbad trivial
  | vref v =>
    obtain ⟨hf, h0⟩ := hround v hal.1 hbad
    obtain rfl := Except.ok.inj hs'
    exact hf ((hF.unused v hal.1).2 (by simpa [Vnodes.vref] using h0))
  | vget v =>
    simp only [Table.Safe, Classical.not_imp] at hbad
    obtain ⟨hf, h0⟩ := hround v hal hbad.2
    have hne : s.usecount v ≠ 0 := fun h => by simp [h] at h0
    have hx : s.vxlock v = false := by rw [hI.locked, hbad.1]
    simp only [Vnodes.step, Vnodes.vget, hx, Bool.false_eq_true, if_false, if_neg hne] at hs'
    obtain rfl := Except.ok.inj hs'
    simp only [Table.step, hbad.1, Bool.false_eq_true, if_false, List.erase_of_not_mem hf] at hF
    exact hf ((hF.unused v hal).2 (by simpa [Vnodes.vref] using h0))
  | vrele v => exact absurd hs' (hI.vrele_overflow hal.1 hbad s')
  | vput v => exact absurd hs' (hI.vrele_overflow hal.1 hbad s')
  | vgone v => exact absurd hs' (hI.vgone_stops hal hbad s')

/-- The free list over a run: what the code's list is, in every state. -/
theorem vfree_runs (desiredvnodes : Nat) (ops : List (Op V))
    (hal : Along (Sys.step desiredvnodes) (fun t op => t.table.Allowed op) (Sys.boot V) ops) :
    (∀ t ∈ states (Sys.step desiredvnodes) (Sys.boot V) ops, ∃ s, t.code = .ok s ∧ FreeList s t.table) ↔
      Along (Sys.step desiredvnodes) (fun t op => t.table.Safe op) (Sys.boot V) ops := by
  refine states_iff_along (I := fun t : Sys V => ∃ s, t.code = .ok s ∧ Inv s t.table) ?_ ?_ ?_
    ⟨Vnodes.boot V, rfl, Inv.boot⟩ hal
  · rintro ⟨_, a⟩ op ⟨s, rfl, hI⟩ hal hok
    exact hI.step hal hok
  · rintro ⟨_, a⟩ ⟨s, rfl, hI⟩
    exact ⟨s, rfl, hI.freeList⟩
  · rintro ⟨_, a⟩ op ⟨s, rfl, hI⟩ hal hbad ⟨s', hs', hF⟩
    exact hI.not_freeList hal hbad s' hs' hF

/-- Two vnodes are released, the second is moved to the front, and both are used again. -/
theorem vfree_runs_two :
    let t := final (Sys.step 2) (Sys.boot Nat) [.getnewvnode 0, .getnewvnode 1, .vref 0, .vrele 0, .vput 0, .vrele 1,
      .vgone 1, .vget 0, .getnewvnode 2, .vrele 0]
    ∃ s, t.code = .ok s ∧ FreeList s t.table :=
  (vfree_runs 2 _ (by decide)).2 (by decide) _ (final_mem_states _ _ _)

/-- The only vnode of the list is moved to its head: the head is null while it is followed. -/
theorem vgone_alone :
    ¬∀ (desiredvnodes : Nat) (ops : List (Op Nat)),
      Along (Sys.step desiredvnodes) (fun t op => t.table.Allowed op) (Sys.boot Nat) ops →
        ∀ t ∈ states (Sys.step desiredvnodes) (Sys.boot Nat) ops, ∃ s, t.code = .ok s ∧ FreeList s t.table := by
  intro h
  have hlast := h 1 [.getnewvnode 0, .vrele 0, .vgone 0] (by decide) _ (final_mem_states _ _ _)
  obtain ⟨s, hs, -⟩ := hlast
  exact absurd hs nofun

end BsdKernel.Vnode
