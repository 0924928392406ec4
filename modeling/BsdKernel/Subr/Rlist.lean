import BsdKernel.Lib.Intervals
import BsdKernel.Lib.Trace
import Mathlib.Tactic
import Mathlib.Order.CompletePartialOrder
/-!
# Resource lists

`rlist_free` and `rlist_alloc` of `kern/subr/rlist.c`. A resource list is the
list of its elements from `*rlp` through `rl_next`; a cursor `rlp` into it is
the elements in front of it (the nearest is `olp`) and those from it on.
Numbers are `unsigned`: sums and differences are modulo `2 ^ 32`. A `panic` is
`none`; `malloc` returns a new element (`M_NOWAIT` failures are not modelled).

`rlist_runs`: the list is always separated, and the two calls are exactly
insertion of a range and first fit on the set of free units.
-/

namespace BsdKernel.Rlist

open BsdKernel.Lib

/-- `x + y` on `unsigned`. -/
def uadd (x y : Nat) : Nat := (x + y) % 2 ^ 32

/-- `x - y` on `unsigned`. -/
def usub (x y : Nat) : Nat := (x + 2 ^ 32 - y) % 2 ^ 32

/-- The largest `unsigned`. -/
def UINT_MAX : Nat := 2 ^ 32 - 1

/-- The loop at `scan:` with `lp` and the elements behind it. -/
def scan (lp : Interval) : List Interval → List Interval
  | [] => [lp]
  | lpn :: rest => if uadd lp.hi 1 = lpn.lo then scan ⟨lp.lo, lpn.hi⟩ rest else lp :: scan lpn rest

/-- `goto scan`: the loop starts at the head of the whole list. -/
def scanList : List Interval → List Interval
  | [] => []
  | head :: rest => scan head rest

/-- `loop:` of `rlist_free`, with the elements passed so far in `front`, the
nearest first. -/
def freeLoop (start stop : Nat) (front : List Interval) : List Interval → Option (List Interval)
  | [] => some (front.reverse ++ [⟨start, stop⟩])
  | r :: rest =>
    if start ≥ r.lo ∧ start ≤ r.hi then none
    else if stop ≥ r.lo ∧ stop ≤ r.hi then none
    else if uadd stop 1 = r.lo then some (scanList (front.reverse ++ ⟨start, r.hi⟩ :: rest))
    else if stop < r.lo then some (front.reverse ++ ⟨start, stop⟩ :: r :: rest)
    else if uadd r.hi 1 = start then some (scanList (front.reverse ++ ⟨r.lo, stop⟩ :: rest))
    else if start > r.hi then freeLoop start stop (r :: front) rest
    else none

def rlistFree (rl : List Interval) (start stop : Nat) : Option (List Interval) := freeLoop start stop [] rl

/-- `rlist_alloc`: the list it leaves, and `*loc` if it returns 1. -/
def rlistAlloc (size : Nat) : List Interval → List Interval × Option Nat
  | [] => ([], none)
  | r :: rest =>
    if size ≤ uadd (usub r.hi r.lo) 1 then
      if uadd r.lo size > r.hi then (rest, some r.lo) else (⟨uadd r.lo size, r.hi⟩ :: rest, some r.lo)
    else ((r :: (rlistAlloc size rest).1), (rlistAlloc size rest).2)

/-! ## Free -/

/-- Every element ends below the largest `unsigned`. -/
def Bounded (rl : List Interval) : Prop := ∀ r ∈ rl, r.hi < UINT_MAX

theorem uadd_of_lt {x y : Nat} (h : x + y < 2 ^ 32) : uadd x y = x + y := Nat.mod_eq_of_lt h

theorem uadd_one {x : Nat} (h : x < UINT_MAX) : uadd x 1 = x + 1 := uadd_of_lt (by unfold UINT_MAX at h; omega)

/-- The scan joins touching neighbours and keeps the set. -/
theorem scan_spec (lp : Interval) (rest : List Interval) (hs : Sorted (lp :: rest)) (hb : Bounded (lp :: rest)) :
    Separated (scan lp rest) ∧ cover (scan lp rest) = cover (lp :: rest) ∧ Bounded (scan lp rest) ∧
      ∀ r ∈ scan lp rest, lp.lo ≤ r.lo := by
  induction rest generalizing lp with
  | nil => exact ⟨⟨by simpa [scan] using hs.1, by simp [scan]⟩, rfl, hb, by simp [scan]⟩
  | cons n rest ih =>
    obtain ⟨hlp, hlt, hrest⟩ := sorted_cons.1 hs
    obtain ⟨hn, hnlt, hrest'⟩ := sorted_cons.1 hrest
    have hln := hlt n (by simp)
    have hbn := hb n (by simp)
    rw [scan, uadd_one (hb lp (by simp))]
    split
    · rename_i he
      obtain ⟨h₁, h₂, h₃, h₄⟩ := ih ⟨lp.lo, n.hi⟩ (sorted_cons.2 ⟨by simp only; omega, hnlt, hrest'⟩)
        (by simpa [Bounded, hbn] using fun r hr => hb r (by simp [hr]))
      refine ⟨h₁, ?_, h₃, h₄⟩
      rw [h₂, cover_cons, cover_cons, cover_cons, ← Set.union_assoc, ← he, Icc_union_succ (by omega) (by omega)]
    · obtain ⟨h₁, h₂, h₃, h₄⟩ := ih n hrest (fun r hr => hb r (by simp [hr]))
      refine ⟨separated_cons.2 ⟨hlp, fun r hr => ?_, h₁⟩, ?_, ?_, ?_⟩
      · have := h₄ r hr
        omega
      · rw [cover_cons, h₂, ← cover_cons]
      · intro r hr
        rcases List.mem_cons.1 hr with rfl | hr
        · exact hb r (by simp)
        · exact h₃ r hr
      · intro r hr
        rcases List.mem_cons.1 hr with rfl | hr
        · exact le_refl _
        · have := h₄ r hr
          omega

theorem scanList_spec (l : List Interval) (hs : Sorted l) (hb : Bounded l) :
    Separated (scanList l) ∧ cover (scanList l) = cover l ∧ Bounded (scanList l) := by
  cases l with
  | nil => exact ⟨separated_nil, rfl, hb⟩
  | cons head rest =>
    obtain ⟨h₁, h₂, h₃, -⟩ := scan_spec head rest hs hb
    exact ⟨h₁, h₂, h₃⟩

theorem Bounded.replace {l l' : List Interval} {r x : Interval} (h : Bounded (l ++ r :: l')) (hx : x.hi < UINT_MAX) :
    Bounded (l ++ x :: l') := by
  simp only [Bounded, List.mem_append, List.mem_cons, or_imp, forall_and, forall_eq] at h ⊢
  exact ⟨h.1, hx, h.2.2⟩

theorem Bounded.insert {l l' : List Interval} {x : Interval} (h : Bounded (l ++ l')) (hx : x.hi < UINT_MAX) :
    Bounded (l ++ x :: l') := by
  simp only [Bounded, List.mem_append, List.mem_cons, or_imp, forall_and, forall_eq] at h ⊢
  exact ⟨h.1, hx, h.2⟩

/-- The elements passed end more than one unit before `start`. -/
theorem freeLoop_spec (start stop : Nat) (hle : start ≤ stop) (hlt : stop < UINT_MAX) (front rest : List Interval)
    (hs : Separated (front.reverse ++ rest)) (hb : Bounded (front.reverse ++ rest))
    (hd : Disjoint (Set.Icc start stop) (cover (front.reverse ++ rest)))
    (hfront : ∀ r ∈ front, r.hi + 1 < start) :
    ∃ l, freeLoop start stop front rest = some l ∧ Separated l ∧ Bounded l ∧
      cover l = cover (front.reverse ++ rest) ∪ Set.Icc start stop := by
  induction rest generalizing front with
  | nil =>
    refine ⟨_, rfl, ?_, ?_, ?_⟩
    · rw [List.append_nil] at hs
      rw [separated_append]
      exact ⟨hs, separated_cons.2 ⟨hle, by simp, separated_nil⟩, by simpa using hfront⟩
    · exact hb.insert hlt
    · exact cover_middle _ _ _
  | cons r rest ih =>
    obtain ⟨hsf, hsr, hfr⟩ := separated_append.1 hs
    obtain ⟨hr, hrlt, hrest⟩ := separated_cons.1 hsr
    have hbr := hb r (by simp)
    have hout : ∀ b ∈ r :: rest, ∀ k, b.lo ≤ k → k ≤ b.hi → ¬(start ≤ k ∧ k ≤ stop) := fun b hbm k h₁ h₂ hk =>
      Set.disjoint_left.1 hd hk (mem_cover_of_mem (List.mem_append_right _ hbm) h₁ h₂)
    have hstart := hout r (by simp) start
    have hstop := hout r (by simp) stop
    have hlo := hout r (by simp) r.lo (le_refl _) hr
    rw [freeLoop, if_neg (by omega), if_neg (by omega), uadd_one hlt, uadd_one hbr]
    split_ifs with hadj hbefore htail hafter
    · -- In front of `r`: the element grows downwards.
      have hw : Separated (front.reverse ++ ⟨start, r.hi⟩ :: rest) :=
        separated_append.2 ⟨hsf, separated_cons.2 ⟨by simp only; omega, hrlt, hrest⟩, fun a ha b hbm => by
          rcases List.mem_cons.1 hbm with rfl | hbm
          · exact hfront a (by simpa using ha)
          · exact hfr a ha b (by simp [hbm])⟩
      obtain ⟨h₁, h₂, h₃⟩ := scanList_spec _ hw.sorted (hb.replace hbr)
      refine ⟨_, rfl, h₁, h₃, ?_⟩
      rw [h₂, cover_middle, cover_middle, ← hadj, Set.union_assoc, Set.union_comm (Set.Icc (stop + 1) r.hi),
        Icc_union_succ (by omega) (by omega)]
    · -- A new element in front of `r`.
      refine ⟨_, rfl, separated_append.2 ⟨hsf, separated_cons.2 ⟨hle, fun b hbm => ?_, hsr⟩, fun a ha b hbm => ?_⟩,
        ?_, ?_⟩
      · rcases List.mem_cons.1 hbm with rfl | hbm
        · simp only; omega
        · have := hrlt b hbm
          simp only; omega
      · rcases List.mem_cons.1 hbm with rfl | hbm
        · exact hfront a (by simpa using ha)
        · exact hfr a ha b hbm
      · exact hb.insert hlt
      · exact cover_middle _ _ _
    · -- Behind `r`: the element grows upwards, and may now touch the next one.
      have hw : Sorted (front.reverse ++ ⟨r.lo, stop⟩ :: rest) :=
        sorted_append.2 ⟨hsf.sorted, sorted_cons.2 ⟨by simp only; omega, fun b hbm => by
            have h₁ := hrlt b hbm
            have h₂ := hout b (by simp [hbm]) b.lo (le_refl _) (hrest.1 b hbm)
            simp only; omega, hrest.sorted⟩, fun a ha b hbm => by
          rcases List.mem_cons.1 hbm with rfl | hbm
          · have := hfr a ha r (by simp)
            simp only; omega
          · have := hfr a ha b (by simp [hbm])
            omega⟩
      obtain ⟨h₁, h₂, h₃⟩ := scanList_spec _ hw (hb.replace hlt)
      refine ⟨_, rfl, h₁, h₃, ?_⟩
      rw [h₂, cover_middle, cover_middle, Set.union_assoc, ← htail, Icc_union_succ (by omega) (by omega)]
    · have happ : (r :: front).reverse ++ rest = front.reverse ++ r :: rest := by simp
      obtain ⟨l, h₁, h₂, h₃, h₄⟩ := ih (r :: front) (happ ▸ hs) (happ ▸ hb) (happ ▸ hd) (by
        intro b hbm
        rcases List.mem_cons.1 hbm with rfl | hbm
        · omega
        · exact hfront b hbm)
      exact ⟨l, h₁, h₂, h₃, by rw [h₄, happ]⟩
    · omega

theorem rlistFree_spec {rl : List Interval} (hs : Separated rl) (hb : Bounded rl) {start stop : Nat}
    (hle : start ≤ stop) (hlt : stop < UINT_MAX) (hd : Disjoint (Set.Icc start stop) (cover rl)) :
    ∃ l, rlistFree rl start stop = some l ∧ Separated l ∧ Bounded l ∧ cover l = cover rl ∪ Set.Icc start stop :=
  freeLoop_spec start stop hle hlt [] rl hs hb hd (by simp)

/-! ## Alloc -/

/-- The starts of the runs of `size` free units. -/
def runStarts (rl : List Interval) (size : Nat) : Set Nat := { s | Set.Ico s (s + size) ⊆ cover rl }

theorem fits_iff {r : Interval} (hr : r.lo ≤ r.hi) (hb : r.hi < UINT_MAX) (size : Nat) :
    size ≤ uadd (usub r.hi r.lo) 1 ↔ r.lo + size ≤ r.hi + 1 := by
  unfold UINT_MAX at hb
  have h₁ : usub r.hi r.lo = r.hi - r.lo := by unfold usub; omega
  rw [h₁, uadd_of_lt (by omega)]
  omega

/-- First fit: the lowest run of `size` free units is taken and exactly it, or
there is none and nothing changes. -/
theorem rlistAlloc_spec {rl : List Interval} (hs : Separated rl) (hb : Bounded rl) {size : Nat} (h1 : 1 ≤ size) :
    Separated (rlistAlloc size rl).1 ∧ Bounded (rlistAlloc size rl).1 ∧
      (∀ r ∈ (rlistAlloc size rl).1, ∃ r' ∈ rl, r'.lo ≤ r.lo) ∧
      ((∃ s, (rlistAlloc size rl).2 = some s ∧ IsLeast (runStarts rl size) s ∧
          cover (rlistAlloc size rl).1 = cover rl \ Set.Ico s (s + size)) ∨
        ((rlistAlloc size rl).2 = none ∧ (rlistAlloc size rl).1 = rl ∧ runStarts rl size = ∅)) := by
  induction rl with
  | nil =>
    refine ⟨hs, hb, by simp [rlistAlloc], .inr ⟨rfl, rfl, ?_⟩⟩
    ext s
    simp only [runStarts, cover_nil, Set.mem_ofPred_eq, Set.mem_empty_iff_false, iff_false]
    exact fun h => h (⟨le_refl _, by omega⟩ : s ∈ Set.Ico s (s + size))
  | cons r rest ih =>
    obtain ⟨hr, hrlt, hrest⟩ := separated_cons.1 hs
    have hbr := hb r (by simp)
    have hbrest : Bounded rest := fun b h => hb b (by simp [h])
    rw [rlistAlloc]
    split
    · -- The element is long enough: its front is handed out.
      rename_i hfit
      rw [fits_iff hr hbr] at hfit
      have hsum : uadd r.lo size = r.lo + size := uadd_of_lt (by unfold UINT_MAX at hbr; omega)
      have hleast : IsLeast (runStarts (r :: rest) size) r.lo := by
        refine ⟨fun k hk => mem_cover_of_mem (r := r) (by simp) hk.1 (by have := hk.2; omega), fun s hsr => ?_⟩
        exact hs.head_le (hsr ⟨le_refl _, by omega⟩)
      -- Nothing of the rest of the list is handed out.
      have hcut : cover rest \ Set.Ico r.lo (r.lo + size) = cover rest := by
        rw [sdiff_eq_left, Set.disjoint_left]
        rintro k ⟨b, hbm, h₁, -⟩ ⟨-, h₂⟩
        have := hrlt b hbm
        omega
      rw [hsum]
      split
      · refine ⟨hrest, hbrest, fun b hbm => ⟨b, by simp [hbm], le_refl _⟩, .inl ⟨r.lo, rfl, hleast, ?_⟩⟩
        have he : Set.Ico r.lo (r.lo + size) = Set.Icc r.lo r.hi := by
          ext k; simp only [Set.mem_Ico, Set.mem_Icc]; omega
        rw [cover_cons, Set.union_sdiff_distrib, hcut, he, Set.sdiff_self, Set.empty_union]
      · refine ⟨separated_cons.2 ⟨by simp only; omega, hrlt, hrest⟩, hb.replace (l := []) hbr, ?_,
          .inl ⟨r.lo, rfl, hleast, ?_⟩⟩
        · intro b hbm
          rcases List.mem_cons.1 hbm with rfl | hbm
          · exact ⟨r, by simp, by simp only; omega⟩
          · exact ⟨b, by simp [hbm], le_refl _⟩
        · have he : Set.Icc r.lo r.hi \ Set.Ico r.lo (r.lo + size) = Set.Icc (r.lo + size) r.hi := by
            ext k; simp only [Set.mem_sdiff, Set.mem_Ico, Set.mem_Icc]; omega
          rw [cover_cons, cover_cons, Set.union_sdiff_distrib, hcut, he]
    · -- The element is too short: no run starts in it.
      rename_i hfit
      rw [fits_iff hr hbr] at hfit
      have hstarts : runStarts (r :: rest) size = runStarts rest size := by
        ext s
        have hsub : cover rest ⊆ cover (r :: rest) := by rw [cover_cons]; exact Set.subset_union_right
        refine ⟨fun h => ?_, fun h => Set.Subset.trans h hsub⟩
        obtain ⟨b, hbm, h₁, h₂⟩ := hs.run h1 h
        rcases List.mem_cons.1 hbm with rfl | hbm
        · omega
        · exact fun k hk => mem_cover_of_mem hbm (by have := hk.1; omega) (by have := hk.2; omega)
      obtain ⟨i₁, i₂, i₃, i₄⟩ := ih hrest hbrest
      refine ⟨separated_cons.2 ⟨hr, fun b hbm => ?_, i₁⟩, ?_, ?_, ?_⟩
      · obtain ⟨b', hb', hle⟩ := i₃ b hbm
        have := hrlt b' hb'
        omega
      · intro b hbm
        rcases List.mem_cons.1 hbm with rfl | hbm
        · exact hbr
        · exact i₂ b hbm
      · intro b hbm
        rcases List.mem_cons.1 hbm with rfl | hbm
        · exact ⟨b, by simp, le_refl _⟩
        · obtain ⟨b', hb', hle⟩ := i₃ b hbm
          exact ⟨b', by simp [hb'], hle⟩
      · rw [hstarts]
        rcases i₄ with ⟨s, hloc, hleast, hcov⟩ | ⟨hloc, hsame, hnone⟩
        · refine .inl ⟨s, hloc, hleast, ?_⟩
          have hfar : Disjoint (Set.Icc r.lo r.hi) (Set.Ico s (s + size)) := by
            rw [Set.disjoint_left]
            rintro k ⟨-, hk₁⟩ hk₂
            obtain ⟨b, hbm, hb₁, -⟩ := hleast.1 hk₂
            have := hrlt b hbm
            omega
          rw [cover_cons, hcov, cover_cons, Set.union_sdiff_distrib, sdiff_eq_left.2 hfar]
        · exact .inr ⟨hloc, by rw [hsame], hnone⟩

/-! ## Runs -/

inductive Op where
  | free (start stop : Nat)
  | alloc (size : Nat)
deriving DecidableEq, Repr

/-- The list after a call; `none` once a call has panicked. -/
def step : Option (List Interval) → Op → Option (List Interval)
  | none, _ => none
  | some rl, .free start stop => rlistFree rl start stop
  | some rl, .alloc size => some (rlistAlloc size rl).1

/-- A freed range is a range of `unsigned` below `UINT_MAX` and in use. -/
def Freeable (rl : List Interval) (start stop : Nat) : Prop :=
  start ≤ stop ∧ stop < UINT_MAX ∧ Disjoint (Set.Icc start stop) (cover rl)

/-- What the callers keep to. -/
def Allowed (t : Option (List Interval)) : Op → Prop
  | .free start stop => ∀ rl, t = some rl → Freeable rl start stop
  | .alloc size => 1 ≤ size

/-- The list in a state is there, sorted, disjoint and coalesced. -/
def ListOk (t : Option (List Interval)) : Prop := ∃ rl, t = some rl ∧ Separated rl ∧ Bounded rl

theorem listOk_step (t : Option (List Interval)) (op : Op) (h : ListOk t) (hop : Allowed t op) : ListOk (step t op) := by
  obtain ⟨rl, rfl, hs, hb⟩ := h
  cases op with
  | free start stop =>
    obtain ⟨hle, hlt, hd⟩ := hop rl rfl
    obtain ⟨l, he, hs', hb', -⟩ := rlistFree_spec hs hb hle hlt hd
    exact ⟨l, he, hs', hb'⟩
  | alloc size =>
    obtain ⟨hs', hb', -⟩ := rlistAlloc_spec hs hb hop
    exact ⟨_, rfl, hs', hb'⟩

/-- Every run of `rlist_free` and `rlist_alloc` from the empty list. In every
state the list is sorted, disjoint and fully coalesced; freeing a range in use
adds exactly that range; an allocation takes exactly the lowest run of `size`
free units and returns its start, or fails and changes nothing, and it fails
exactly when there is no such run. -/
theorem rlist_runs (ops : List Op) (hops : Along step Allowed (some []) ops) :
    ∀ t ∈ states step (some []) ops, ∃ rl, t = some rl ∧ Separated rl ∧
      (∀ start stop, Freeable rl start stop →
        ∃ l, rlistFree rl start stop = some l ∧ cover l = cover rl ∪ Set.Icc start stop) ∧
      ∀ size, 1 ≤ size →
        (∀ s, (rlistAlloc size rl).2 = some s →
          IsLeast (runStarts rl size) s ∧ cover (rlistAlloc size rl).1 = cover rl \ Set.Ico s (s + size)) ∧
        ((rlistAlloc size rl).2 = none ↔ runStarts rl size = ∅) ∧
        ((rlistAlloc size rl).2 = none → (rlistAlloc size rl).1 = rl) := by
  intro t ht
  obtain ⟨rl, rfl, hs, hb⟩ := states_of_along listOk_step ⟨[], rfl, separated_nil, by simp [Bounded]⟩ hops t ht
  refine ⟨rl, rfl, hs, fun start stop hfree => ?_, fun size h1 => ?_⟩
  · obtain ⟨hle, hlt, hd⟩ := hfree
    obtain ⟨l, he, -, -, hc⟩ := rlistFree_spec hs hb hle hlt hd
    exact ⟨l, he, hc⟩
  · obtain ⟨-, -, -, ⟨s, hloc, hleast, hcov⟩ | ⟨hloc, hsame, hnone⟩⟩ := rlistAlloc_spec hs hb h1
    · refine ⟨fun s' hs' => ?_, ?_, fun hn => ?_⟩
      · rw [hloc, Option.some.injEq] at hs'
        subst hs'
        exact ⟨hleast, hcov⟩
      · rw [hloc]
        simp only [reduceCtorEq, false_iff]
        exact Set.Nonempty.ne_empty ⟨s, hleast.1⟩
      · rw [hloc] at hn; cases hn
    · exact ⟨fun s hs' => (by rw [hloc] at hs'; cases hs'), by simp [hloc, hnone], fun _ => hsame⟩

/-- Units 10 to 19 freed, then 30 to 39, then the gap between them: one element
remains, and 25 units are found in it. -/
theorem rlist_runs_coalesce :
    let ops := [Op.free 10 19, .free 30 39, .free 20 29]
    final step (some []) ops = some [⟨10, 39⟩] ∧
      (rlistAlloc 25 [⟨10, 39⟩]).2 = some 10 ∧ IsLeast (runStarts [⟨10, 39⟩] 25) 10 := by
  have hops : Along step Allowed (some []) [Op.free 10 19, .free 30 39, .free 20 29] := by
    refine ⟨?_, ?_, ?_, trivial⟩ <;> rintro rl ⟨⟩ <;> refine ⟨by decide, by decide, ?_⟩ <;>
      rw [Set.disjoint_left] <;> rintro k hk ⟨r, hr, h₁, h₂⟩ <;>
      simp only [Set.mem_Icc, List.mem_cons, List.not_mem_nil, or_false, List.reverse_cons, List.reverse_nil,
        List.nil_append, List.cons_append] at hk hr
    all_goals (rcases hr with rfl | rfl <;> simp only at h₁ h₂ <;> omega)
  have hmem := final_mem_states step (some []) [Op.free 10 19, .free 30 39, .free 20 29]
  obtain ⟨rl, he, -, -, ha⟩ := rlist_runs _ hops _ hmem
  have hfin : final step (some []) [Op.free 10 19, .free 30 39, .free 20 29] = some [⟨10, 39⟩] := by decide
  rw [hfin, Option.some.injEq] at he
  subst he
  exact ⟨hfin, by decide, ((ha 25 (by omega)).1 10 (by decide)).1⟩

end BsdKernel.Rlist
