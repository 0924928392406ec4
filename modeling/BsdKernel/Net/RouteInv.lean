import BsdKernel.Net.Route
import BsdKernel.Lib.Tally
/-!
# What the counts count

`Inv`: each `rt_refcnt` is the number of references handed out (`refs`) and of `rt_gwroute` pointers, an entry that is neither
in the tree nor just being made (`bld`) has such a reference, `rttrash` counts the entries out of the tree, and `ifa_refcnt` the entries of the interface address.
Between two statements one entry (`w`) may be out of line: its `rt_gwroute` does not count as a pointer, and it does not count as trash.
-/

set_option linter.unusedSectionVars false

namespace BsdKernel.Route

open Lib Lib.Cmd

variable {A F T : Type} [DecidableEq F]

/-! ## Sums over the entries -/

/-- The sum of `f` over the entries in memory. -/
def Routes.sum (s : Routes A F T) (f : Nat → Rtentry A F → Nat) : Nat :=
  tally (fun j => ((s.mem j).map (f j)).getD 0) (List.range s.next)

section Sums
variable {s : Routes A F T} {f f' : Nat → Rtentry A F → Nat} {i : Nat} {e e' : Rtentry A F}

@[simp] theorem put_mem_same (s : Routes A F T) (i : Nat) (e : Rtentry A F) : (s.put i e).mem i = some e := Function.update_self ..

theorem put_mem_other {j : Nat} (h : j ≠ i) : (s.put i e).mem j = s.mem j := Function.update_of_ne h ..

theorem sum_put (f f' : Nat → Rtentry A F → Nat) (e' : Rtentry A F) (hi : i < s.next) (h : s.mem i = some e) (hf : ∀ j d, j ≠ i → f' j d = f j d) :
    (s.put i e').sum f' + f i e = s.sum f + f' i e' := by
  have hupd := tally_update (f := fun j => ((s.mem j).map (f j)).getD 0) (g := fun j => (((s.put i e').mem j).map (f' j)).getD 0)
    List.nodup_range (List.mem_range.2 hi) fun b _ hb => by rw [put_mem_other hb, funext fun d => hf b d hb]
  rw [put_mem_same, h] at hupd
  exact hupd

theorem sum_free (hi : i < s.next) (h : s.mem i = some e) :
    ({ s with mem := Function.update s.mem i none } : Routes A F T).sum f + f i e = s.sum f := by
  have hupd := tally_update (f := fun j => ((s.mem j).map (f j)).getD 0)
    (g := fun j => ((Function.update s.mem i none j).map (f j)).getD 0)
    List.nodup_range (List.mem_range.2 hi) fun b _ hb => by rw [Function.update_of_ne hb]
  rw [Function.update_self, h] at hupd
  exact hupd

theorem sum_alloc : ({ s.put s.next e with next := s.next + 1 } : Routes A F T).sum f = s.sum f + f s.next e := by
  show tally _ (List.range (s.next + 1)) = _
  rw [List.range_succ, tally_append]
  have hsame : ∀ j ∈ List.range s.next, (((s.put s.next e).mem j).map (f j)).getD 0 = ((s.mem j).map (f j)).getD 0 := by
    intro j hj
    rw [put_mem_other (Nat.ne_of_lt (List.mem_range.1 hj))]
  have hlast : tally (fun j => (((s.put s.next e).mem j).map (f j)).getD 0) [s.next] = f s.next e := by simp
  exact congrArg₂ (· + ·) (tally_congr hsame) hlast

theorem le_sum (hi : i < s.next) (h : s.mem i = some e) : f i e ≤ s.sum f := by
  have hle := le_tally (f := fun j => ((s.mem j).map (f j)).getD 0) (List.mem_range.2 hi)
  simp only [h] at hle
  exact hle

end Sums

/-! ## The invariant -/

/-- Whether `rt_gwroute` counts as a pointer to `i`. -/
def points (w : Option Nat) (i j : Nat) (e : Rtentry A F) : Nat := if e.rt_gwroute = some i ∧ w ≠ some j then 1 else 0

/-- Whether the entry counts as trash. -/
def dead (w : Option Nat) (j : Nat) (e : Rtentry A F) : Nat := if e.up = false ∧ w ≠ some j then 1 else 0

/-- Whether the entry holds the interface address. -/
def holds (ifa : F) (_ : Nat) (e : Rtentry A F) : Nat := if e.rt_ifa = some ifa then 1 else 0

/-- References handed out, and pointers. -/
def Routes.number (s : Routes A F T) (refs : List Nat) (w : Option Nat) (i : Nat) : Nat := refs.count i + s.sum (points w i)

/-- An entry is up, and in the tree or being made; or it is out of the tree and referred to. -/
def Placed (rx : Radix A T) (s : Routes A F T) (refs bld : List Nat) (w : Option Nat) (i : Nat) (e : Rtentry A F) : Prop :=
  (e.up = true ∧ (i ∈ rx.ids s.tree ∨ i ∈ bld)) ∨
    (e.up = false ∧ 0 < s.number refs w i ∧ e.rt_gwroute = none ∧ e.rt_ifa.isSome)

/-- What holds of the place `i`. -/
structure At (rx : Radix A T) (s : Routes A F T) (refs bld : List Nat) (w : Option Nat) (i : Nat) : Prop where
  fresh : ∀ e, s.mem i = some e → i < s.next
  count : ∀ e, s.mem i = some e → e.rt_refcnt = s.number refs w i
  live : 0 < s.number refs w i → ∃ e, s.mem i = some e
  placed : ∀ e, s.mem i = some e → w ≠ some i → Placed rx s refs bld w i e
  tree : i ∈ rx.ids s.tree → ∃ e, s.mem i = some e ∧ e.up = true ∧ e.rt_ifa.isSome
  made : i ∈ bld → i ∉ rx.ids s.tree ∧ s.number refs w i = 0 ∧ ∃ e, s.mem i = some e ∧ e.up = true ∧ e.rt_ifa = none
  line : w = some i → ∃ e, s.mem i = some e
  gate : ∀ e, s.mem i = some e → e.rt_ifa.isSome → e.rt_gateway.isSome

/-- What holds of the entry at the place `i`. -/
structure Entry (rx : Radix A T) (s : Routes A F T) (refs bld : List Nat) (w : Option Nat) (i : Nat) (e : Rtentry A F) : Prop where
  count : e.rt_refcnt = s.number refs w i
  placed : w ≠ some i → Placed rx s refs bld w i e
  tree : i ∈ rx.ids s.tree → e.up = true ∧ e.rt_ifa.isSome
  made : i ∈ bld → i ∉ rx.ids s.tree ∧ s.number refs w i = 0 ∧ e.up = true ∧ e.rt_ifa = none
  gate : e.rt_ifa.isSome → e.rt_gateway.isSome

structure Inv (rx : Radix A T) (base : F → Nat) (s : Routes A F T) (refs bld : List Nat) (w : Option Nat) : Prop where
  place : ∀ i, At rx s refs bld w i
  trash : s.rttrash = s.sum (dead w)
  ifa : ∀ f, s.ifa_refcnt f = some ((base f + s.sum (holds f) : Nat) : Int)

/-- A place where nothing changes. -/
theorem At.congr {rx : Radix A T} {s s' : Routes A F T} {refs refs' bld bld' : List Nat} {w w' : Option Nat} {i : Nat}
    (h : At rx s refs bld w i) (hnext : s.next ≤ s'.next) (hmem : s'.mem i = s.mem i)
    (hnum : s'.number refs' w' i = s.number refs w i) (htree : i ∈ rx.ids s'.tree ↔ i ∈ rx.ids s.tree)
    (hbld : i ∈ bld' ↔ i ∈ bld) (hw : w' = some i ↔ w = some i) : At rx s' refs' bld' w' i := by
  refine ⟨?_, ?_, ?_, ?_, ?_, ?_, ?_, ?_⟩
  · intro e he
    exact Nat.lt_of_lt_of_le (h.fresh e (hmem ▸ he)) hnext
  · intro e he
    rw [hnum]
    exact h.count e (hmem ▸ he)
  · intro hpos
    rw [hmem]
    exact h.live (hnum ▸ hpos)
  · intro e he hne
    unfold Placed
    rw [hnum, htree, hbld]
    exact h.placed e (hmem ▸ he) fun hc => hne (hw.2 hc)
  · rw [hmem, htree]
    exact h.tree
  · rw [hmem, htree, hbld, hnum]
    exact h.made
  · rw [hmem, hw]
    exact h.line
  · rw [hmem]
    exact h.gate

section Inv
variable {rx : Radix A T} {base : F → Nat} {s : Routes A F T} {refs bld : List Nat} {w : Option Nat} {i g : Nat} {e e' : Rtentry A F} {f : F}

theorem At.entry (h : At rx s refs bld w i) (hi : s.mem i = some e) : Entry rx s refs bld w i e := by
  refine ⟨h.count e hi, h.placed e hi, fun ht => ?_, fun hb => ?_, h.gate e hi⟩
  · obtain ⟨d, hd, hin⟩ := h.tree ht
    obtain rfl := Option.some.inj (hd.symm.trans hi)
    exact hin
  · obtain ⟨hnot, hzero, d, hd, hin⟩ := h.made hb
    obtain rfl := Option.some.inj (hd.symm.trans hi)
    exact ⟨hnot, hzero, hin⟩

theorem Entry.place (h : Entry rx s refs bld w i e) (hi : s.mem i = some e) (hlt : i < s.next) : At rx s refs bld w i := by
  have hone : ∀ d, s.mem i = some d → d = e := fun d hd => Option.some.inj (hd.symm.trans hi)
  refine ⟨fun _ _ => hlt, fun d hd => hone d hd ▸ h.count, fun _ => ⟨e, hi⟩, fun d hd => hone d hd ▸ h.placed,
    fun ht => ⟨e, hi, h.tree ht⟩, fun hb => ?_, fun _ => ⟨e, hi⟩, fun d hd => hone d hd ▸ h.gate⟩
  obtain ⟨hnot, hzero, hin⟩ := h.made hb
  exact ⟨hnot, hzero, e, hi, hin⟩

theorem Inv.next (h : Inv rx base s refs bld w) (hi : s.mem i = some e) : i < s.next := (h.place i).fresh e hi

theorem Inv.free_next (h : Inv rx base s refs bld w) : s.mem s.next = none := by
  cases hm : s.mem s.next with
  | none => rfl
  | some e => exact absurd (h.next hm) (Nat.lt_irrefl _)

theorem Inv.referred (h : Inv rx base s refs bld w) (hi : i ∈ refs) : ∃ e, s.mem i = some e := by
  apply (h.place i).live
  have hpos := List.count_pos_iff.2 hi
  unfold Routes.number
  omega

theorem Inv.not_made (h : Inv rx base s refs bld w) (hi : 0 < s.number refs w i) : i ∉ bld := by
  intro hb
  have hzero := ((h.place i).made hb).2.1
  omega

/-! ## One entry changes -/

/-- The entry at `i`, the tree and `rttrash` change. -/
def Routes.set (s : Routes A F T) (i : Nat) (e : Rtentry A F) (t : T) (trash : Int) : Routes A F T :=
  { s.put i e with tree := t, rttrash := trash }

section Set
variable {t : T} {m : Int} {refs' bld' : List Nat} {w' gw : Option Nat}

@[simp] theorem set_mem_same (s : Routes A F T) (i : Nat) (e : Rtentry A F) (t : T) (m : Int) : (s.set i e t m).mem i = some e :=
  put_mem_same ..

theorem points_congr (hw : ∀ j, j ≠ i → (w' = some j ↔ w = some j)) (k j : Nat) (d : Rtentry A F) (hj : j ≠ i) :
    points w' k j d = points w k j d := by
  unfold points
  simp only [ne_eq, hw j hj]

theorem dead_congr (hw : ∀ j, j ≠ i → (w' = some j ↔ w = some j)) (j : Nat) (d : Rtentry A F) (hj : j ≠ i) :
    dead w' j d = dead w j d := by
  unfold dead
  simp only [ne_eq, hw j hj]

theorem number_set (refs refs' : List Nat) (e' : Rtentry A F) (t : T) (m : Int) (hi : i < s.next) (h : s.mem i = some e) (hw : ∀ j, j ≠ i → (w' = some j ↔ w = some j)) (j : Nat) :
    (s.set i e' t m).number refs' w' j + (refs.count j + points w j i e) = s.number refs w j + (refs'.count j + points w' j i e') := by
  have hsum := sum_put (points w j) (points w' j) e' hi h (points_congr hw j)
  unfold Routes.number
  have hset : (s.set i e' t m).sum (points w' j) = (s.put i e').sum (points w' j) := rfl
  omega

/-- Only the place `i` changes: the references to others move between `refs` and the pointer of `i`. -/
theorem Inv.change (h : Inv rx base s refs bld w) (hi : s.mem i = some e)
    (hrefs : ∀ j, j ≠ i → refs'.count j + points w' j i e' = refs.count j + points w j i e)
    (htree : ∀ j, j ≠ i → (j ∈ rx.ids t ↔ j ∈ rx.ids s.tree)) (hbld : ∀ j, j ≠ i → (j ∈ bld' ↔ j ∈ bld))
    (hw : ∀ j, j ≠ i → (w' = some j ↔ w = some j)) (hent : Entry rx (s.set i e' t m) refs' bld' w' i e')
    (htrash : m + dead w i e = s.rttrash + dead w' i e') (hifa : e'.rt_ifa = e.rt_ifa) :
    Inv rx base (s.set i e' t m) refs' bld' w' := by
  have hnext := h.next hi
  refine ⟨?_, ?_, ?_⟩
  · intro j
    by_cases hj : j = i
    · subst hj
      exact hent.place (set_mem_same ..) hnext
    · have hnum := number_set refs refs' e' t m hnext hi hw j
      have hsame := hrefs j hj
      exact (h.place j).congr (Nat.le_refl _) (put_mem_other hj) (by omega) (htree j hj) (hbld j hj) (hw j hj)
  · have hsum := sum_put (dead w) (dead w') e' hnext hi (dead_congr hw)
    have hold := h.trash
    show m = ((s.put i e').sum (dead w') : Int)
    omega
  · intro f
    have hsum := sum_put (holds f) (holds f) e' hnext hi fun _ _ _ => rfl
    have hsame : holds f i e' = holds f i e := by rw [holds, hifa, holds]
    have hset : (s.set i e' t m).sum (holds f) = (s.put i e').sum (holds f) := rfl
    rw [hset, show (s.put i e').sum (holds f) = s.sum (holds f) by omega]
    exact h.ifa f

theorem Inv.recount (h : Inv rx base s refs bld w) (hi : s.mem i = some e) {n : Int} (hbld : i ∉ bld)
    (hother : ∀ j, j ≠ i → refs'.count j = refs.count j)
    (hn : n + refs.count i = e.rt_refcnt + refs'.count i) (hdead : e.up = false → w ≠ some i → 0 < n) :
    Inv rx base (s.put i { e with rt_refcnt := n }) refs' bld w := by
  have hnum := number_set refs refs' { e with rt_refcnt := n } s.tree s.rttrash (h.next hi) hi (fun j _ => (Iff.rfl : w = some j ↔ _)) i
  have hpoints : points w i i { e with rt_refcnt := n } = points w i i e := rfl
  have hcount := (h.place i).count e hi
  have hnew : n = ((s.set i { e with rt_refcnt := n } s.tree s.rttrash).number refs' w i : Int) := by omega
  refine Inv.change h hi (fun j hj => by rw [hother j hj]; rfl) (fun _ _ => Iff.rfl) (fun _ _ => Iff.rfl) (fun _ _ => Iff.rfl) ?_ rfl rfl
  have hent := (h.place i).entry hi
  refine ⟨hnew, fun hne => ?_, hent.tree, fun hb => absurd hb hbld, hent.gate⟩
  rcases hent.placed hne with hup | ⟨hup, -, hrest⟩
  · exact .inl hup
  · have hpos := hdead hup hne
    exact .inr ⟨hup, by omega, hrest⟩

theorem set_self (h : s.mem i = some e) : s.set i e s.tree s.rttrash = s := by
  have hupd : Function.update s.mem i (some e) = s.mem := by
    rw [← h]
    exact Function.update_eq_self ..
  unfold Routes.set Routes.put
  rw [hupd]

theorem line_iff {j : Nat} (hj : j ≠ i) : (some i = some j ↔ (none : Option Nat) = some j) :=
  iff_of_false (fun h => hj (Option.some.inj h).symm) (by simp)

theorem points_line (j : Nat) (e : Rtentry A F) : points (some i) j i e = 0 := if_neg fun h => h.2 rfl

theorem points_none (j : Nat) (e : Rtentry A F) : points none j i e = e.rt_gwroute.toList.count j := by
  unfold points
  cases e.rt_gwroute with
  | none => rfl
  | some g =>
    by_cases hg : g = j
    · simp [hg]
    · simp [hg]

theorem Inv.take_pointer (h : Inv rx base s refs bld none) (hi : s.mem i = some e) (hup : e.up = true) :
    Inv rx base s (e.rt_gwroute.toList ++ refs) bld (some i) := by
  have hcounts : ∀ j, (e.rt_gwroute.toList ++ refs).count j + points (some i) j i e = refs.count j + points none j i e := by
    intro j
    rw [points_line, points_none, List.count_append]
    omega
  have hnum := number_set refs (e.rt_gwroute.toList ++ refs) e s.tree s.rttrash (h.next hi) hi
    (fun j hj => (line_iff hj : some i = some j ↔ _)) i
  have hchange : Inv rx base (s.set i e s.tree s.rttrash) (e.rt_gwroute.toList ++ refs) bld (some i) := by
    refine Inv.change h hi (fun j _ => hcounts j) (fun _ _ => Iff.rfl) (fun _ _ => Iff.rfl) (fun j hj => line_iff hj) ?_ ?_ rfl
    · rw [set_self hi] at hnum ⊢
      have hcount := hcounts i
      have hsame : s.number (e.rt_gwroute.toList ++ refs) (some i) i = s.number refs none i := by omega
      have hent := (h.place i).entry hi
      exact ⟨hsame ▸ hent.count, fun hne => absurd rfl hne, hent.tree, hsame ▸ hent.made, hent.gate⟩
    · simp [dead, hup]
  rwa [set_self hi] at hchange

theorem Inv.set_line (h : Inv rx base s refs bld (some i)) (hi : s.mem i = some e) (hbld : i ∉ bld)
    (htree : ∀ j, j ≠ i → (j ∈ rx.ids t ↔ j ∈ rx.ids s.tree)) (hout : i ∈ rx.ids t → i ∈ rx.ids s.tree ∧ e'.up = e.up)
    (hcount : e'.rt_refcnt = e.rt_refcnt) (hifa : e'.rt_ifa = e.rt_ifa) (hgate : e'.rt_gateway = e.rt_gateway) :
    Inv rx base (s.set i e' t s.rttrash) refs bld (some i) := by
  have hnum := number_set refs refs e' t s.rttrash (h.next hi) hi (fun j _ => (Iff.rfl : some i = some j ↔ _)) i
  rw [points_line, points_line] at hnum
  have hent := (h.place i).entry hi
  have hold := hent.count
  refine Inv.change h hi (fun j _ => by rw [points_line, points_line]) htree (fun _ _ => Iff.rfl) (fun _ _ => Iff.rfl)
    ⟨by omega, fun hne => absurd rfl hne, fun ht => ?_, fun hb => absurd hb hbld, by rw [hifa, hgate]; exact hent.gate⟩
    (by simp [dead]) hifa
  obtain ⟨hold, hup⟩ := hout ht
  rw [hup, hifa]
  exact hent.tree hold

/-- The entry is back in line: it is up, or it counts as trash. -/
theorem Inv.back_in_line (h : Inv rx base s refs bld (some i)) (hi : s.mem i = some e) (hgw : e.rt_gwroute = none)
    (hplaced : Placed rx s refs bld (some i) i e) : Inv rx base { s with rttrash := s.rttrash + dead none i e } refs bld none := by
  have hpoints : ∀ j, points none j i e = 0 := fun j => by
    rw [points_none, hgw]
    rfl
  have hw : ∀ j, j ≠ i → ((none : Option Nat) = some j ↔ some i = some j) := fun j hj => (line_iff hj).symm
  have hnum := number_set refs refs e s.tree (s.rttrash + dead none i e) (h.next hi) hi hw i
  rw [hpoints, points_line] at hnum
  have hset : s.set i e s.tree (s.rttrash + dead none i e) = { s with rttrash := s.rttrash + dead none i e } := by
    have hself := set_self hi
    exact congrArg (fun r : Routes A F T => { r with rttrash := s.rttrash + dead none i e }) hself
  have hent := (h.place i).entry hi
  have hchange : Inv rx base (s.set i e s.tree (s.rttrash + dead none i e)) refs bld none := by
    refine Inv.change h hi (fun j _ => by rw [hpoints, points_line]) (fun _ _ => Iff.rfl) (fun _ _ => Iff.rfl) hw ?_
      (by simp [dead]) rfl
    rw [hset] at hnum ⊢
    have hsame : ({ s with rttrash := s.rttrash + dead none i e } : Routes A F T).number refs none i = s.number refs (some i) i := by omega
    refine ⟨hsame ▸ hent.count, fun _ => ?_, hent.tree, hsame ▸ hent.made, hent.gate⟩
    unfold Placed
    rw [hsame]
    exact hplaced
  rwa [hset] at hchange

theorem Inv.neutral (h : Inv rx base s refs bld none) (e' : Rtentry A F) (hi : s.mem i = some e) (hgw : e'.rt_gwroute = e.rt_gwroute) (hup : e'.up = e.up)
    (hcount : e'.rt_refcnt = e.rt_refcnt) (hifa : e'.rt_ifa = e.rt_ifa) (hgate : e'.rt_ifa.isSome → e'.rt_gateway.isSome) :
    Inv rx base (s.put i e') refs bld none := by
  have hpoints : ∀ j, points none j i e' = points none j i e := fun j => by rw [points_none, points_none, hgw]
  have hnum := number_set refs refs e' s.tree s.rttrash (h.next hi) hi (fun j _ => (Iff.rfl : none = some j ↔ _)) i
  rw [hpoints] at hnum
  have hsame : (s.set i e' s.tree s.rttrash).number refs none i = s.number refs none i := by omega
  have hent := (h.place i).entry hi
  refine Inv.change h hi (fun j _ => by rw [hpoints]) (fun _ _ => Iff.rfl) (fun _ _ => Iff.rfl) (fun _ _ => Iff.rfl) ?_
    (by unfold dead; rw [hup]) hifa
  refine ⟨by rw [hsame, hcount]; exact hent.count, fun hne => ?_, ?_, ?_, hgate⟩
  · unfold Placed
    rw [hsame, hup, hgw, hifa]
    exact hent.placed hne
  · rw [hup, hifa]
    exact hent.tree
  · rw [hsame, hup, hifa]
    exact hent.made

/-- A reference becomes the pointer of an entry that is up. -/
theorem Inv.give_pointer (h : Inv rx base s (gw.toList ++ refs) bld none) (hi : s.mem i = some e) (hgw : e.rt_gwroute = none)
    (hup : e.up = true) : Inv rx base (s.put i { e with rt_gwroute := gw }) refs bld none := by
  have hcounts : ∀ j, refs.count j + points none j i { e with rt_gwroute := gw } = (gw.toList ++ refs).count j + points none j i e := by
    intro j
    rw [points_none, points_none, hgw, List.count_append]
    show _ = _ + [].count j
    rw [List.count_nil]
    exact Nat.add_comm ..
  have hnum := number_set (gw.toList ++ refs) refs { e with rt_gwroute := gw } s.tree s.rttrash (h.next hi) hi
    (fun j _ => (Iff.rfl : none = some j ↔ _)) i
  have hcount := hcounts i
  have hsame : (s.set i { e with rt_gwroute := gw } s.tree s.rttrash).number refs none i = s.number (gw.toList ++ refs) none i := by omega
  have hent := (h.place i).entry hi
  refine Inv.change h hi (fun j _ => hcounts j) (fun _ _ => Iff.rfl) (fun _ _ => Iff.rfl) (fun _ _ => Iff.rfl)
    ⟨hsame ▸ hent.count, fun hne => ?_, hent.tree, hsame ▸ hent.made, hent.gate⟩ rfl rfl
  rcases hent.placed hne with ⟨-, hplace⟩ | ⟨hdown, -⟩
  · exact .inl ⟨hup, hplace⟩
  · rw [hup] at hdown
    cases hdown

end Set

/-! ## Entries come and go -/

/-- The entry at `i` is freed. -/
theorem Inv.remove (h : Inv rx base s refs bld w) (hi : s.mem i = some e) {refs' bld' : List Nat} {w' : Option Nat} {s' : Routes A F T}
    (hmem : s'.mem = Function.update s.mem i none) (hnext : s'.next = s.next) (htree : s'.tree = s.tree) (hnot : i ∉ rx.ids s.tree)
    (hrefs : ∀ j, j ≠ i → refs'.count j = refs.count j) (hzero : refs'.count i + s.sum (points w i) = 0)
    (hpoints : ∀ j, points w j i e = 0) (hbld : ∀ j, j ≠ i → (j ∈ bld' ↔ j ∈ bld)) (hbld' : i ∉ bld')
    (hw : ∀ j, j ≠ i → (w' = some j ↔ w = some j)) (hw' : w' ≠ some i)
    (htrash : s'.rttrash + dead w i e = s.rttrash)
    (hifa : ∀ f, ∃ n : Nat, s'.ifa_refcnt f = some (n : Int) ∧ n + holds f i e = base f + s.sum (holds f)) :
    Inv rx base s' refs' bld' w' := by
  have hsum : ∀ f : Nat → Rtentry A F → Nat, s'.sum f + f i e = s.sum f := by
    intro f
    rw [← sum_free (h.next hi) hi]
    unfold Routes.sum
    rw [hmem, hnext]
  -- At `i` nothing counts, so that it does not matter what is out of line.
  have hsum' : ∀ f f' : Nat → Rtentry A F → Nat, (∀ j d, j ≠ i → f' j d = f j d) → s'.sum f' = s'.sum f := by
    intro f f' hf
    unfold Routes.sum
    refine tally_congr fun j _ => ?_
    by_cases hj : j = i
    · rw [hmem, hj, Function.update_self]
      rfl
    · rw [funext fun d => hf j d hj]
  have hnum : ∀ j, s'.sum (points w' j) = s.sum (points w j) := by
    intro j
    have hfree := hsum (points w j)
    rw [hsum' (points w j) (points w' j) (points_congr hw j), ← hfree, hpoints]
    rfl
  have hnone : s'.mem i = none := by rw [hmem, Function.update_self]
  refine ⟨?_, ?_, ?_⟩
  · intro j
    by_cases hj : j = i
    · subst hj
      have hno : ∀ d, s'.mem j ≠ some d := by simp [hnone]
      refine ⟨fun d hd => absurd hd (hno d), fun d hd => absurd hd (hno d), ?_, fun d hd => absurd hd (hno d), ?_,
        fun hb => absurd hb hbld', fun hc => absurd hc hw', fun d hd => absurd hd (hno d)⟩
      · unfold Routes.number
        rw [hnum]
        omega
      · rw [htree]
        exact fun ht => absurd ht hnot
    · refine (h.place j).congr (Nat.le_of_eq hnext.symm) ?_ ?_ (by rw [htree]) (hbld j hj) (hw j hj)
      · rw [hmem, Function.update_of_ne hj]
      · unfold Routes.number
        rw [hnum, hrefs j hj]
  · have hdead := hsum (dead w)
    rw [hsum' (dead w) (dead w') (dead_congr hw)]
    have hold := h.trash
    omega
  · intro f
    obtain ⟨n, hn, hsame⟩ := hifa f
    have hholds := hsum (holds f)
    rw [hn]
    congr 2
    omega

/-- A new entry. -/
theorem Inv.add (h : Inv rx base s refs bld none) (hgw : e.rt_gwroute = none) (hup : e.up = true) (hifa : e.rt_ifa = none)
    (hzero : e.rt_refcnt = 0) :
    Inv rx base { s.put s.next e with next := s.next + 1 } refs (s.next :: bld) none ∧ s.next ∉ bld := by
  have hfree := h.free_next
  have hnot : ∀ P : Prop, (∃ d, s.mem s.next = some d ∧ P) → False := by
    rintro P ⟨d, hd, -⟩
    rw [hfree] at hd
    cases hd
  have hsum : ∀ f : Nat → Rtentry A F → Nat, f s.next e = 0 → ({ s.put s.next e with next := s.next + 1 } : Routes A F T).sum f = s.sum f := by
    intro f hf
    rw [sum_alloc, hf, Nat.add_zero]
  have hpoints : ∀ j, points none j s.next e = 0 := fun j => by
    rw [points_none, hgw]
    rfl
  have hnum : ∀ j, ({ s.put s.next e with next := s.next + 1 } : Routes A F T).number refs none j = s.number refs none j := by
    intro j
    unfold Routes.number
    rw [hsum _ (hpoints j)]
  have hnone : s.number refs none s.next = 0 := by
    cases hn : s.number refs none s.next with
    | zero => rfl
    | succ n =>
      obtain ⟨d, hd⟩ := (h.place s.next).live (by omega)
      exact absurd ⟨d, hd, trivial⟩ (hnot True)
  have htree : s.next ∉ rx.ids s.tree := by
    intro ht
    obtain ⟨d, hd, -⟩ := (h.place s.next).tree ht
    exact hnot True ⟨d, hd, trivial⟩
  refine ⟨⟨?_, ?_, ?_⟩, ?_⟩
  · intro j
    by_cases hj : j = s.next
    · subst hj
      refine Entry.place ⟨?_, fun _ => .inl ⟨hup, .inr (List.mem_cons_self ..)⟩, fun ht => absurd ht htree, fun _ => ?_, ?_⟩
        (put_mem_same ..) (Nat.lt_succ_self _)
      · rw [hnum, hnone, hzero]
        rfl
      · rw [hnum]
        exact ⟨htree, hnone, hup, hifa⟩
      · rw [hifa]
        intros
        contradiction
    · refine (h.place j).congr (Nat.le_succ _) (put_mem_other hj) (hnum j) Iff.rfl ?_ Iff.rfl
      rw [List.mem_cons]
      exact or_iff_right hj
  · have hdead : dead none s.next e = 0 := by simp [dead, hup]
    rw [hsum _ hdead]
    exact h.trash
  · intro f
    have hholds : holds f s.next e = 0 := by simp [holds, hifa]
    rw [hsum _ hholds]
    exact h.ifa f
  · intro hb
    obtain ⟨-, -, d, hd, -⟩ := (h.place s.next).made hb
    exact hnot True ⟨d, hd, trivial⟩

/-- The entry gets its interface address, and is in the tree. -/
theorem Inv.set_ifa (h : Inv rx base s refs bld none) (hi : s.mem i = some e) (e' : Rtentry A F) {bld' : List Nat} {s' : Routes A F T}
    (hmem : s'.mem = Function.update s.mem i (some e')) (hnext : s'.next = s.next) (hin : i ∈ rx.ids s'.tree)
    (htree : ∀ j, j ≠ i → (j ∈ rx.ids s'.tree ↔ j ∈ rx.ids s.tree)) (hbld : ∀ j, j ≠ i → (j ∈ bld' ↔ j ∈ bld)) (hbld' : i ∉ bld')
    (hgw : e'.rt_gwroute = e.rt_gwroute) (hcount : e'.rt_refcnt = e.rt_refcnt) (hup : e.up = true) (hup' : e'.up = true)
    (hsome : e'.rt_ifa.isSome) (hgate : e'.rt_gateway.isSome) (htrash : s'.rttrash = s.rttrash)
    (hifa : ∀ f, ∃ n : Nat, s'.ifa_refcnt f = some (n : Int) ∧ n + holds f i e = base f + s.sum (holds f) + holds f i e') :
    Inv rx base s' refs bld' none := by
  have hsum : ∀ f : Nat → Rtentry A F → Nat, s'.sum f + f i e = s.sum f + f i e' := by
    intro f
    rw [← sum_put f f e' (h.next hi) hi fun _ _ _ => rfl]
    unfold Routes.sum Routes.put
    rw [hmem, hnext]
  have hnum : ∀ j, s'.number refs none j = s.number refs none j := by
    intro j
    have hp := hsum (points none j)
    have hsame : points none j i e' = points none j i e := by unfold points; rw [hgw]
    unfold Routes.number
    omega
  have hsome' : s'.mem i = some e' := by rw [hmem, Function.update_self]
  refine ⟨?_, ?_, ?_⟩
  · intro j
    by_cases hj : j = i
    · subst hj
      refine Entry.place ⟨?_, fun _ => .inl ⟨hup', .inl hin⟩, fun _ => ⟨hup', hsome⟩, fun hb => absurd hb hbld', fun _ => hgate⟩
        hsome' (hnext ▸ h.next hi)
      rw [hnum, hcount]
      exact ((h.place j).entry hi).count
    · refine (h.place j).congr (Nat.le_of_eq hnext.symm) ?_ (hnum j) (htree j hj) (hbld j hj) Iff.rfl
      rw [hmem, Function.update_of_ne hj]
  · have hdead := hsum (dead none)
    have hsame : dead none i e' = dead none i e := by unfold dead; rw [hup, hup']
    have hold := h.trash
    omega
  · intro f
    obtain ⟨n, hn, hsame⟩ := hifa f
    have hholds := hsum (holds f)
    rw [hn]
    congr 2
    omega

end Inv

end BsdKernel.Route
