import BsdKernel.Subr.Rlist
/-!
# Double frees of a resource list

`rlist_free` is to panic when a part of the range is free already. It looks at
one element at a time, and where it joins the range to an element it does not
look at the elements behind: a range that starts right behind an element may
overlap the next ones unseen (`rlistFree_none_iff`). `rlist_panics` says for
every run which ranges those are.
-/

namespace BsdKernel.Rlist

open BsdKernel.Lib

variable {l rl : List Interval} {start stop : Nat}

/-- The range and the element have a unit in common. -/
def Overlaps (start stop : Nat) (r : Interval) : Prop := start ≤ r.hi ∧ r.lo ≤ stop

/-- The range is joined to the element, whatever is behind it: it starts right
behind the element, or `end + 1` wraps to the start of the element. -/
def Coalesces (start stop : Nat) (r : Interval) : Prop := r.hi + 1 = start ∨ stop = UINT_MAX ∧ r.lo = 0 ∧ r.hi < start

/-- No two elements overlap. -/
def Apart (rl : List Interval) : Prop := rl.Pairwise fun a b => Disjoint (Set.Icc a.lo a.hi) (Set.Icc b.lo b.hi)

/-- `rlist_free` panics exactly on a range of which a unit is free, and leaves no overlapping elements. -/
def Detects (rl : List Interval) (start stop : Nat) : Prop :=
  (rlistFree rl start stop = none ↔ ∃ r ∈ rl, Overlaps start stop r) ∧ ∀ l, rlistFree rl start stop = some l → Apart l

theorem disjoint_of_lt {a b : Interval} (h : a.hi < b.lo) : Disjoint (Set.Icc a.lo a.hi) (Set.Icc b.lo b.hi) := by
  rw [Set.disjoint_left]
  rintro k ⟨-, hk⟩ ⟨hk', -⟩
  omega

theorem apart_of_sorted (h : Sorted l) : Apart l := h.2.imp disjoint_of_lt

theorem uadd_max : uadd UINT_MAX 1 = 0 := rfl

/-- The walk panics if the range overlaps an element, unless it is joined to one. -/
theorem freeLoop_none_iff (hle : start ≤ stop) (hmax : stop ≤ UINT_MAX) (rest front : List Interval)
    (hs : Separated rest) (hb : Bounded rest) :
    freeLoop start stop front rest = none ↔
      (∃ r ∈ rest, Overlaps start stop r) ∧ ¬∃ r ∈ rest, Coalesces start stop r := by
  induction rest generalizing front with
  | nil => simp [freeLoop]
  | cons r rest ih =>
    obtain ⟨hr, hrlt, hrest⟩ := separated_cons.1 hs
    have hbr := hb r (by simp)
    have hbrest : Bounded rest := fun b h => hb b (by simp [h])
    have hfar : ∀ b ∈ rest, r.hi + 1 < b.lo ∧ b.lo ≤ b.hi := fun b h => ⟨hrlt b h, hrest.1 b h⟩
    -- What the elements behind `r` are not, once `start` is not behind `r`.
    have hnone : start ≤ r.hi → ¬∃ b ∈ rest, Coalesces start stop b := by
      rintro h ⟨b, hbm, hco⟩
      have := hfar b hbm
      unfold Coalesces at hco
      omega
    rw [freeLoop, uadd_one hbr]
    simp only [List.mem_cons, exists_eq_or_imp]
    split_ifs with hfront htail hadj hbefore hbehind hafter
    · exact iff_of_true rfl ⟨.inl ⟨hfront.2, by omega⟩, not_or.2 ⟨by unfold Coalesces; omega, hnone hfront.2⟩⟩
    · exact iff_of_true rfl ⟨.inl ⟨by omega, htail.1⟩, not_or.2 ⟨by unfold Coalesces; omega, hnone (by omega)⟩⟩
    · -- In front of `r`, or `end + 1` is zero.
      refine iff_of_false (by simp) ?_
      rintro ⟨hover, hco⟩
      rcases Nat.lt_or_eq_of_le hmax with hlt | rfl
      · rw [uadd_one hlt] at hadj
        rcases hover with hover | ⟨b, hbm, hover⟩
        · unfold Overlaps at hover
          omega
        · have := hfar b hbm
          unfold Overlaps at hover
          omega
      · rw [uadd_max] at hadj
        exact hco (.inl (.inr ⟨rfl, hadj.symm, by omega⟩))
    · refine iff_of_false (by simp) ?_
      rintro ⟨hover | ⟨b, hbm, hover⟩, -⟩
      · unfold Overlaps at hover
        omega
      · have := hfar b hbm
        unfold Overlaps at hover
        omega
    · -- Joined to `r`: the rest is not looked at.
      exact iff_of_false (by simp) fun h => h.2 (.inl (.inl hbehind))
    · have hr' : ¬Overlaps start stop r := fun h => by unfold Overlaps at h; omega
      have hco : ¬Coalesces start stop r := by
        rintro (h | ⟨rfl, h, -⟩)
        · exact hbehind h
        · exact hadj (uadd_max.trans h.symm)
      rw [ih (r :: front) hrest hbrest]
      simp only [hr', hco, false_or]
    · exact iff_of_true rfl ⟨.inl ⟨by omega, by omega⟩, not_or.2 ⟨by unfold Coalesces; omega, hnone (by omega)⟩⟩

theorem rlistFree_none_iff (hs : Separated rl) (hb : Bounded rl) (hle : start ≤ stop) (hmax : stop ≤ UINT_MAX) :
    rlistFree rl start stop = none ↔
      (∃ r ∈ rl, Overlaps start stop r) ∧ ¬∃ r ∈ rl, Coalesces start stop r :=
  freeLoop_none_iff hle hmax rl [] hs hb

/-! ## The list after a call that does not panic -/

/-- Where no element ends right in front of a later one, the scan changes nothing. -/
theorem scan_eq_self (lp : Interval) (rest : List Interval)
    (h : (lp :: rest).Pairwise fun a b => uadd a.hi 1 ≠ b.lo) : scan lp rest = lp :: rest := by
  induction rest generalizing lp with
  | nil => rfl
  | cons n rest ih =>
    obtain ⟨hlp, hrest⟩ := List.pairwise_cons.1 h
    rw [scan, if_neg (hlp n (by simp)), ih n hrest]

theorem scanList_eq_self (h : l.Pairwise fun a b => uadd a.hi 1 ≠ b.lo) : scanList l = l := by
  cases l with
  | nil => rfl
  | cons head rest => exact scan_eq_self head rest h

theorem not_touching (hs : Separated l) (hb : Bounded l) : l.Pairwise fun a b => uadd a.hi 1 ≠ b.lo := by
  refine hs.2.imp_of_mem fun {a b} ha _ hab => ?_
  rw [uadd_one (hb a ha)]
  omega

/-- A range up to the largest `unsigned` behind all elements; `end + 1` wraps. -/
theorem freeLoop_max (hmax : start ≤ UINT_MAX) (rest front : List Interval) (hs : Separated (front.reverse ++ rest))
    (hb : Bounded (front.reverse ++ rest)) (hbehind : ∀ r ∈ front.reverse ++ rest, r.hi < start) :
    ∀ l, freeLoop start UINT_MAX front rest = some l → Apart l := by
  induction rest generalizing front with
  | nil =>
    rintro l ⟨⟩
    rw [List.append_nil] at hs hbehind
    exact apart_of_sorted (sorted_append.2 ⟨hs.sorted, sorted_cons.2 ⟨hmax, by simp, separated_nil.sorted⟩,
      fun a ha b hbm => by rw [List.mem_singleton.1 hbm]; exact hbehind a ha⟩)
  | cons r rest ih =>
    obtain ⟨hsf, hsr, hfr⟩ := separated_append.1 hs
    obtain ⟨hr, hrlt, hrest⟩ := separated_cons.1 hsr
    have hbr := hb r (by simp)
    have hrs := hbehind r (by simp)
    rw [freeLoop, if_neg (by omega), if_neg (by omega), uadd_max, uadd_one hbr]
    split_ifs with hadj htail
    · -- `end + 1` is zero and `r`, the first element, starts there: it becomes empty.
      have hfirst : front = [] := by
        cases front with
        | nil => rfl
        | cons a front =>
          have := hfr a (by simp) r (by simp)
          omega
      subst hfirst
      have hnt : List.Pairwise (fun a b => uadd a.hi 1 ≠ b.lo) (⟨start, r.hi⟩ :: rest) :=
        List.pairwise_cons.2 (List.pairwise_cons.1 (not_touching hsr hb))
      rintro l ⟨⟩
      rw [List.reverse_nil, List.nil_append, scanList_eq_self hnt]
      refine List.pairwise_cons.2 ⟨fun b hbm => ?_, apart_of_sorted hrest.sorted⟩
      rw [Set.Icc_eq_empty (by simp only; omega)]
      exact Set.empty_disjoint _
    · omega
    · -- Joined to `r`, which is the last element.
      have hlast : rest = [] := by
        cases rest with
        | nil => rfl
        | cons b rest =>
          have h₁ := hbehind b (by simp)
          have h₂ := hrlt b (by simp)
          have h₃ := hrest.1 b (by simp)
          omega
      subst hlast
      have hw : Sorted (front.reverse ++ [⟨r.lo, UINT_MAX⟩]) :=
        sorted_append.2 ⟨hsf.sorted, sorted_cons.2 ⟨by simp only; omega, by simp, separated_nil.sorted⟩,
          fun a ha b hbm => by
            rw [List.mem_singleton.1 hbm]
            have := hfr a ha r (by simp)
            simp only; omega⟩
      have hnt : List.Pairwise (fun a b => uadd a.hi 1 ≠ b.lo) (front.reverse ++ [⟨r.lo, UINT_MAX⟩]) := by
        refine List.pairwise_append.2
          ⟨not_touching hsf fun a ha => hb a (List.mem_append_left _ ha), by simp, ?_⟩
        intro a ha b hbm
        rw [List.mem_singleton.1 hbm, uadd_one (hb a (List.mem_append_left _ ha))]
        have := hfr a ha r (by simp)
        simp only; omega
      rintro l ⟨⟩
      rw [scanList_eq_self hnt]
      exact apart_of_sorted hw
    · have happ : (r :: front).reverse ++ rest = front.reverse ++ r :: rest := by simp
      exact ih (r :: front) (happ ▸ hs) (happ ▸ hb) (happ ▸ hbehind)

theorem disjoint_cover_iff (hs : Separated rl) (hle : start ≤ stop) :
    Disjoint (Set.Icc start stop) (cover rl) ↔ ¬∃ r ∈ rl, Overlaps start stop r := by
  rw [Set.disjoint_left]
  constructor
  · rintro h ⟨r, hr, h₁, h₂⟩
    have := hs.1 r hr
    exact h (a := max start r.lo) ⟨by omega, by omega⟩ ⟨r, hr, by omega, by omega⟩
  · rintro h k ⟨h₁, h₂⟩ ⟨r, hr, h₃, h₄⟩
    exact h ⟨r, hr, by omega, by omega⟩

/-- The ranges a double free of which goes unnoticed. -/
theorem detects_iff (hs : Separated rl) (hb : Bounded rl) (hle : start ≤ stop) (hmax : stop ≤ UINT_MAX) :
    Detects rl start stop ↔ ¬((∃ r ∈ rl, Overlaps start stop r) ∧ ∃ r ∈ rl, Coalesces start stop r) := by
  have hnone := rlistFree_none_iff hs hb hle hmax
  unfold Detects
  by_cases hover : ∃ r ∈ rl, Overlaps start stop r
  · simp only [hover, true_and, iff_true] at hnone ⊢
    constructor
    · exact fun h => hnone.1 h.1
    · intro h
      have hp := hnone.2 h
      exact ⟨hp, fun l hl => by rw [hp] at hl; cases hl⟩
  · -- The range is in use, so it is added.
    simp only [hover, false_and, iff_false, not_false_eq_true, iff_true] at hnone ⊢
    refine ⟨hnone, fun l hl => ?_⟩
    rcases Nat.lt_or_eq_of_le hmax with hlt | rfl
    · obtain ⟨l', hl', hs', -⟩ := rlistFree_spec hs hb hle hlt ((disjoint_cover_iff hs hle).2 hover)
      rw [hl, Option.some.injEq] at hl'
      exact hl' ▸ apart_of_sorted hs'.sorted
    · refine freeLoop_max hle rl [] hs hb (fun r hr => ?_) l hl
      by_contra hn
      exact hover ⟨r, hr, not_lt.1 hn, le_of_lt (lt_of_le_of_lt (hs.1 r hr) (hb r hr))⟩

/-! ## Runs -/

/-- The calls of a run: a range that overlaps a free one does not start right
behind one, and `end + 1` does not wrap. -/
def Noticed (t : Option (List Interval)) : Op → Prop
  | .free start stop => start ≤ stop ∧ stop < UINT_MAX ∧
      ∀ rl, t = some rl → ¬((∃ r ∈ rl, Overlaps start stop r) ∧ ∃ r ∈ rl, Coalesces start stop r)
  | .alloc _ => True

theorem rlistAlloc_zero (rl : List Interval) (hs : Separated rl) (hb : Bounded rl) : (rlistAlloc 0 rl).1 = rl := by
  cases rl with
  | nil => rfl
  | cons r rest =>
    have hr := hs.1 r (by simp)
    have hlo : uadd r.lo 0 = r.lo := uadd_of_lt (by have := hb r (by simp); unfold UINT_MAX at this; omega)
    rw [rlistAlloc, if_pos (Nat.zero_le _), hlo, if_neg (by omega)]

theorem noticed_step (t : Option (List Interval)) (op : Op) (h : t = none ∨ ListOk t) (hop : Noticed t op) :
    step t op = none ∨ ListOk (step t op) := by
  rcases h with rfl | ⟨rl, rfl, hs, hb⟩
  · exact .inl rfl
  cases op with
  | alloc size =>
    refine .inr ?_
    rcases Nat.eq_zero_or_pos size with rfl | hpos
    · exact ⟨rl, congrArg some (rlistAlloc_zero rl hs hb), hs, hb⟩
    · obtain ⟨hs', hb', -⟩ := rlistAlloc_spec hs hb hpos
      exact ⟨_, rfl, hs', hb'⟩
  | free start stop =>
    obtain ⟨hle, hlt, hnot⟩ := hop
    by_cases hover : ∃ r ∈ rl, Overlaps start stop r
    · exact .inl ((rlistFree_none_iff hs hb hle (le_of_lt hlt)).2 ⟨hover, fun hco => hnot rl rfl ⟨hover, hco⟩⟩)
    · obtain ⟨l, hl, hs', hb', -⟩ := rlistFree_spec hs hb hle hlt ((disjoint_cover_iff hs hle).2 hover)
      exact .inr ⟨l, hl, hs', hb'⟩

/-- In every list such a run reaches the elements are apart, and the ranges whose
double free is noticed are exactly those that overlap nothing or are joined to nothing. -/
theorem rlist_panics (ops : List Op) (hops : Along step Noticed (some []) ops) (rl : List Interval)
    (hrl : some rl ∈ states step (some []) ops) :
    Apart rl ∧ ∀ start stop, start ≤ stop → stop ≤ UINT_MAX →
      (Detects rl start stop ↔ ¬((∃ r ∈ rl, Overlaps start stop r) ∧ ∃ r ∈ rl, Coalesces start stop r)) := by
  rcases states_of_along noticed_step (.inr ⟨[], rfl, separated_nil, by simp [Bounded]⟩) hops _ hrl with
    h | ⟨l, h, hs, hb⟩
  · cases h
  · cases h
    exact ⟨apart_of_sorted hs.sorted, fun start stop hle hmax => detects_iff hs hb hle hmax⟩

/-- Units 10 to 20 are free; freeing 15 to 30 panics. -/
theorem double_free_noticed : Detects [⟨10, 20⟩] 15 30 := by
  have hops : Along step Noticed (some []) [Op.free 10 20] :=
    ⟨⟨by decide, by decide, by rintro rl ⟨⟩ ⟨⟨r, hr, -⟩, -⟩; simp at hr⟩, trivial⟩
  refine ((rlist_panics _ hops [⟨10, 20⟩] (by simp [states, step, rlistFree, freeLoop])).2 15 30 (by decide)
    (by decide)).2 ?_
  simp [Coalesces, UINT_MAX]

/-- Units 10 to 20 and 25 to 30 are free. Freeing 21 to 27 does not panic: the
elements overlap afterwards, and unit 25 is handed out twice. -/
theorem double_free_unnoticed :
    final step (some []) [.free 10 20, .free 25 30] = some [⟨10, 20⟩, ⟨25, 30⟩] ∧
      rlistFree [⟨10, 20⟩, ⟨25, 30⟩] 21 27 = some [⟨10, 27⟩, ⟨25, 30⟩] ∧ ¬Detects [⟨10, 20⟩, ⟨25, 30⟩] 21 27 := by
  refine ⟨by decide, by decide, fun h => ?_⟩
  have hnone := h.1.2 ⟨⟨25, 30⟩, by simp, by decide, by decide⟩
  exact absurd hnone (by decide)

end BsdKernel.Rlist
