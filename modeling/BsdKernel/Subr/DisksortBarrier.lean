import BsdKernel.Subr.DisksortRuns
import Mathlib.Data.List.TakeWhile
import Mathlib.Tactic
/-!
# Ordered requests as barriers

A request that asked for `B_ORDER` should stay behind everything that was
queued when it came and ahead of everything that comes later (`Barrier`).
`disksort` marks the queue it finds, but not its last request, so one unmarked
request can stand directly in front of the ordered one; a later request that
the elevator puts between the two passes the barrier. `Passes` says when it
does not, and `barrier_iff` that runs keep every barrier exactly when every
insertion passes.
-/

namespace BsdKernel.Disksort

open BsdKernel.Lib

variable {l p rest : List Buf} {x bp : Buf} {q : Queue} {asked : Nat → Bool}

/-- Of two queued requests, at least one of which asked for `B_ORDER`, the one
ahead arrived first. -/
def Barrier (t : Trace) : Prop :=
  t.q.bActf.Pairwise fun a b => (t.asked a.addr ∨ t.asked b.addr) → t.arrived a.addr < t.arrived b.addr

instance (t : Trace) : Decidable (Barrier t) := by unfold Barrier; infer_instance

/-- An insertion of `bp` into the chain does not stop in front of an ordered
request: when the first unmarked request `x` is followed by a marked one `o`,
the elevator takes `bp` past `o`. -/
def Passes (chain : List Buf) (bp : Buf) : Prop :=
  match chain.dropWhile Buf.ordered with
  | x :: o :: _ =>
    bp.ordered ∨ ¬o.ordered ∨
      if bp.bCylin < x.bCylin then o.bCylin < x.bCylin → ¬goesBefore bp o
      else ¬o.bCylin < x.bCylin ∧ ¬goesBefore bp o
  | _ => True

instance (chain : List Buf) (bp : Buf) : Decidable (Passes chain bp) := by
  unfold Passes; split <;> infer_instance

def PassesOp (t : Trace) : Op → Prop
  | .insert bp => Passes t.q.bActf bp
  | .remove => True

instance (t : Trace) : (op : Op) → Decidable (PassesOp t op)
  | .insert bp => inferInstanceAs (Decidable (Passes t.q.bActf bp))
  | .remove => isTrue trivial

/-! ## The shape of the queue -/

/-- The queue is a marked prefix and an unmarked rest, or between the two there
is one unmarked request and the ordered request that came behind it. -/
def Shape (asked : Nat → Bool) (l : List Buf) : Prop :=
  ∃ p u, (∀ b ∈ p, b.ordered = true) ∧ (∀ b ∈ u, b.ordered = false) ∧
    (l = p ++ u ∨ ∃ x o, x.ordered = false ∧ o.ordered = true ∧ asked o.addr = true ∧ l = p ++ x :: o :: u)

structure BarrierInv (t : Trace) : Prop where
  shape : Shape t.asked t.q.bActf
  barrier : Barrier t
  marked : ∀ b ∈ t.q.bActf, t.asked b.addr = true → b.ordered = true
  nodup : (t.q.bActf.map Buf.addr).Nodup
  past : ∀ b ∈ t.q.bActf, t.arrived b.addr < t.inserted.length

/-! ## Where a request lands -/

theorem skipOrdered_prefix (ahead p : List Buf) (a x : Buf) (rest : List Buf) (ha : a.ordered = true)
    (hp : ∀ b ∈ p, b.ordered = true) (hx : x.ordered = false) :
    skipOrdered ahead a (p ++ x :: rest) = ⟨p.reverse ++ a :: ahead, x, rest⟩ := by
  induction p generalizing ahead a with
  | nil =>
    rw [List.nil_append, skipOrdered, if_pos ha]
    cases rest <;> simp [skipOrdered, hx]
  | cons b p ih =>
    rw [List.cons_append, skipOrdered, if_pos ha, ih (a :: ahead) b (hp b (by simp)) (fun c hc => hp c (by simp [hc]))]
    simp

theorem skipOrdered_all (ahead p : List Buf) (a : Buf) (hp : ∀ b ∈ a :: p, b.ordered = true) :
    (skipOrdered ahead a p).ap.ordered = true ∧ (skipOrdered ahead a p).avForw = [] := by
  induction p generalizing ahead a with
  | nil => exact ⟨hp a (by simp), rfl⟩
  | cons b p ih =>
    rw [skipOrdered, if_pos (hp a (by simp))]
    exact ih (a :: ahead) b (fun c hc => hp c (by simp [hc]))

/-- The cursor where the marked prefix ends. -/
theorem position_prefix (bp : Buf) {a : Buf} (hl : a :: l = p ++ x :: rest) (hp : ∀ b ∈ p, b.ordered = true)
    (hx : x.ordered = false) :
    position bp a l = if bp.ordered then markOrdered p.reverse x rest else elevator bp ⟨p.reverse, x, rest⟩ := by
  cases p with
  | nil =>
    simp only [List.nil_append, List.cons.injEq] at hl
    obtain ⟨rfl, rfl⟩ := hl
    simp [position, hx]
  | cons b p =>
    simp only [List.cons_append, List.cons.injEq] at hl
    obtain ⟨rfl, rfl⟩ := hl
    have ha := hp a (by simp)
    simp [position, ha, skipOrdered_prefix [] p a x rest ha (fun c hc => hp c (by simp [hc])) hx, hx]

theorem disksort_all_marked (h : ∀ b ∈ q.bActf, b.ordered = true) : (disksort q bp).bActf = q.bActf ++ [bp] := by
  cases hq : q.bActf with
  | nil => exact bActf_disksort_nil hq
  | cons a l =>
    rw [hq] at h
    obtain ⟨hap, hav⟩ := skipOrdered_all [] l a h
    have hc := chain_skipOrdered [] a l
    have hpos : position bp a l = skipOrdered [] a l := by simp [position, h a (by simp), hap]
    rw [bActf_disksort_cons hq, hpos]
    simp only [Cursor.chain, Cursor.place, hav, List.reverse_nil, List.nil_append] at hc ⊢
    rw [← hc]
    simp

/-- An ordered request marks all but the last of the unmarked rest and goes to
the end. -/
theorem disksort_ordered (hq : q.bActf = p ++ x :: rest) (hp : ∀ b ∈ p, b.ordered = true) (hx : x.ordered = false)
    (hb : bp.ordered = true) :
    ∃ last, (x :: rest).getLast? = some last ∧
      (disksort q bp).bActf = p ++ (x :: rest).dropLast.map Buf.setOrder ++ [last, bp] := by
  obtain ⟨last, hl, he⟩ := markOrdered_eq p.reverse x rest
  refine ⟨last, hl, ?_⟩
  obtain ⟨a, l, hal⟩ : ∃ a l, q.bActf = a :: l := by cases p <;> simp [hq]
  rw [bActf_disksort_cons hal, position_prefix bp (hal ▸ hq) hp hx, if_pos hb, he]
  simp [Cursor.place]

/-- Each search goes on behind the request it starts at. -/
theorem elevator_stays (bp : Buf) (ahead : List Buf) (ap : Buf) (rest : List Buf) (f : Cursor)
    (hf : f = searchSecond bp ahead ap rest ∨ f = findInversion bp ahead ap rest ∨ f = searchFirst bp ahead ap rest) :
    ∃ r₁ r₂, rest = r₁ ++ r₂ ∧ f.place bp = ahead.reverse ++ ap :: (r₁ ++ bp :: r₂) := by
  induction rest generalizing ahead ap f with
  | nil => exact ⟨[], [], rfl, by rcases hf with rfl | rfl | rfl <;> rfl⟩
  | cons n rest ih =>
    have hstop : f = ⟨ahead, ap, n :: rest⟩ →
        ∃ r₁ r₂, n :: rest = r₁ ++ r₂ ∧ f.place bp = ahead.reverse ++ ap :: (r₁ ++ bp :: r₂) := by
      rintro rfl; exact ⟨[], n :: rest, rfl, rfl⟩
    have hmove : (f = searchSecond bp (ap :: ahead) n rest ∨ f = findInversion bp (ap :: ahead) n rest ∨
        f = searchFirst bp (ap :: ahead) n rest) →
        ∃ r₁ r₂, n :: rest = r₁ ++ r₂ ∧ f.place bp = ahead.reverse ++ ap :: (r₁ ++ bp :: r₂) := by
      intro h
      obtain ⟨r₁, r₂, hr, he⟩ := ih (ap :: ahead) n f h
      exact ⟨n :: r₁, r₂, by simp [hr], by simp [he]⟩
    rw [searchSecond, findInversion, searchFirst, searchSecond] at hf
    split_ifs at hf <;> rcases hf with h | h | h <;>
      first
      | exact hstop h
      | exact hmove (.inl h)
      | exact hmove (.inr (.inl h))
      | exact hmove (.inr (.inr h))

theorem disksort_plain (hq : q.bActf = p ++ x :: rest) (hp : ∀ b ∈ p, b.ordered = true) (hx : x.ordered = false)
    (hb : bp.ordered = false) : ∃ r₁ r₂, rest = r₁ ++ r₂ ∧ (disksort q bp).bActf = p ++ x :: (r₁ ++ bp :: r₂) := by
  obtain ⟨a, l, hal⟩ : ∃ a l, q.bActf = a :: l := by cases p <;> simp [hq]
  rw [bActf_disksort_cons hal, position_prefix bp (hal ▸ hq) hp hx, hb, if_neg (by simp), elevator]
  split
  · simpa using elevator_stays bp p.reverse x rest _ (.inr (.inl rfl))
  · simpa using elevator_stays bp p.reverse x rest _ (.inr (.inr rfl))

theorem dropWhile_marked (hp : ∀ b ∈ p, b.ordered = true) (hx : x.ordered = false) :
    (p ++ x :: rest).dropWhile Buf.ordered = x :: rest := by
  induction p with
  | nil => simp [hx]
  | cons b p ih => simp [hp b (by simp), ih (fun c hc => hp c (by simp [hc]))]

/-- With an ordered request `o` right behind the first unmarked one, a plain
request that does not pass goes between the two. -/
theorem disksort_between (bp : Buf) {o : Buf} {u : List Buf} (hq : q.bActf = p ++ x :: o :: u)
    (hp : ∀ b ∈ p, b.ordered = true) (hx : x.ordered = false) (ho : o.ordered = true) :
    (Passes q.bActf bp → bp.ordered = false →
      ∃ r₁ r₂, u = r₁ ++ r₂ ∧ (disksort q bp).bActf = p ++ x :: o :: (r₁ ++ bp :: r₂)) ∧
    (¬Passes q.bActf bp → (disksort q bp).bActf = p ++ x :: bp :: o :: u ∧ bp.ordered = false) := by
  obtain ⟨a, l, hal⟩ : ∃ a l, q.bActf = a :: l := by cases p <;> simp [hq]
  have hpos := position_prefix bp (hal ▸ hq) hp hx
  have hpass : Passes q.bActf bp ↔ bp.ordered ∨ ¬o.ordered ∨
      if bp.bCylin < x.bCylin then o.bCylin < x.bCylin → ¬goesBefore bp o
      else ¬o.bCylin < x.bCylin ∧ ¬goesBefore bp o := by
    rw [hq, Passes, dropWhile_marked hp hx]
  constructor
  · intro h hb
    rw [hpass] at h
    simp only [hb, ho, not_true_eq_false, Bool.false_eq_true, false_or] at h
    rw [bActf_disksort_cons hal, hpos, hb, if_neg (by simp), elevator]
    have hon : ∀ f, f = searchSecond bp (x :: p.reverse) o u ∨ f = findInversion bp (x :: p.reverse) o u ∨
        f = searchFirst bp (x :: p.reverse) o u →
        ∃ r₁ r₂, u = r₁ ++ r₂ ∧ f.place bp = p ++ x :: o :: (r₁ ++ bp :: r₂) := by
      intro f hf
      simpa using elevator_stays bp (x :: p.reverse) o u f hf
    split_ifs at h with hlt
    · simp only [hlt, if_true, findInversion, searchSecond]
      split_ifs with hinv hgo
      · exact absurd hgo (h hinv)
      · exact hon _ (.inl rfl)
      · exact hon _ (.inr (.inl rfl))
    · simp only [hlt, if_false, searchFirst]
      rw [if_neg (by simpa using h)]
      exact hon _ (.inr (.inr rfl))
  · intro h
    rw [hpass] at h
    simp only [not_or, ho, not_true_eq_false, not_false_eq_true, true_and, Bool.not_eq_true] at h
    obtain ⟨hb, h⟩ := h
    refine ⟨?_, hb⟩
    rw [bActf_disksort_cons hal, hpos, hb, if_neg (by simp), elevator]
    split_ifs at h with hlt
    · simp only [Classical.not_imp] at h
      simp [hlt, findInversion, searchSecond, h.1, h.2, Cursor.place]
    · simp only [hlt, if_false, searchFirst]
      rw [if_pos (by rw [Bool.or_eq_true, decide_eq_true_eq]; by_contra hn; exact h (by simpa [not_or] using hn))]
      simp [Cursor.place]

/-! ## What an insertion that passes leaves -/

/-- The chain `l'` is `l` with some requests marked. -/
abbrev Marks (l l' : List Buf) : Prop := List.Forall₂ (fun b b' => b' = b ∨ b' = b.setOrder) l l'

theorem marks_refl (l : List Buf) : Marks l l := List.forall₂_same.2 fun _ _ => .inl rfl

theorem marks_setOrder (l : List Buf) : Marks l (l.map Buf.setOrder) := by
  induction l with
  | nil => exact .nil
  | cons b l ih => exact .cons (.inr rfl) ih

theorem Marks.mem {l' : List Buf} (h : Marks l l') {b' : Buf} (hb : b' ∈ l') :
    ∃ b ∈ l, b'.addr = b.addr ∧ (b.ordered = true → b'.ordered = true) := by
  induction h with
  | nil => cases hb
  | cons hab _ ih =>
    rcases List.mem_cons.1 hb with rfl | hb
    · rcases hab with rfl | rfl
      · exact ⟨_, List.mem_cons_self, rfl, id⟩
      · exact ⟨_, List.mem_cons_self, rfl, fun _ => ordered_setOrder _⟩
    · obtain ⟨b, hb, h⟩ := ih hb
      exact ⟨b, by simp [hb], h⟩

theorem Marks.addrs {l' : List Buf} (h : Marks l l') : l'.map Buf.addr = l.map Buf.addr := by
  induction h with
  | nil => rfl
  | cons hab _ ih => rcases hab with rfl | rfl <;> simp [ih]

/-- The outcome of an insertion into a queue of the invariant's shape: `bp` has
only unmarked requests behind it, none at all when it is ordered itself. -/
structure Landed (asked : Nat → Bool) (q : Queue) (bp : Buf) (l₁ l₂ : List Buf) : Prop where
  chain : (disksort q bp).bActf = l₁ ++ bp :: l₂
  marks : Marks q.bActf (l₁ ++ l₂)
  behind : ∀ b ∈ l₂, b.ordered = false
  ordered : bp.ordered = true → l₂ = []
  shape : Shape (Function.update asked bp.addr bp.ordered) (l₁ ++ bp :: l₂)

theorem landed_marked (h : ∀ b ∈ q.bActf, b.ordered = true) :
    Landed asked q bp q.bActf [] where
  chain := disksort_all_marked h
  marks := by rw [List.append_nil]; exact marks_refl _
  behind := by simp
  ordered _ := rfl
  shape := by
    by_cases hb : bp.ordered = true
    · exact ⟨q.bActf ++ [bp], [], by simpa [or_imp, forall_and, hb] using h, by simp, .inl (by simp)⟩
    · exact ⟨q.bActf, [bp], h, by simpa using hb, .inl rfl⟩

/-- An ordered request behind an unmarked one. -/
theorem landed_ordered (hq : q.bActf = p ++ x :: rest) (hp : ∀ b ∈ p, b.ordered = true) (hx : x.ordered = false)
    (hb : bp.ordered = true) : ∃ l₁, Landed asked q bp l₁ [] := by
  obtain ⟨last, hl, he⟩ := disksort_ordered hq hp hx hb
  have hd : (x :: rest).dropLast ++ [last] = x :: rest := List.dropLast_append_getLast? _ hl
  refine ⟨p ++ (x :: rest).dropLast.map Buf.setOrder ++ [last], by simp [he], ?_, by simp, fun _ => rfl, ?_⟩
  · have hrest := List.rel_append (marks_setOrder (x :: rest).dropLast) (marks_refl [last])
    simp only [hd] at hrest
    rw [hq, List.append_nil, List.append_assoc]
    exact List.rel_append (marks_refl p) hrest
  · have hm : ∀ b ∈ p ++ (x :: rest).dropLast.map Buf.setOrder, b.ordered = true := by
      intro b hb
      rcases List.mem_append.1 hb with h | h
      · exact hp b h
      · obtain ⟨c, -, rfl⟩ := List.mem_map.1 h; exact ordered_setOrder c
    by_cases hlast : last.ordered = true
    · refine ⟨p ++ (x :: rest).dropLast.map Buf.setOrder ++ [last, bp], [], ?_, by simp, .inl (by simp)⟩
      intro b hb'
      rcases List.mem_append.1 hb' with h | h
      · exact hm b h
      · simp only [List.mem_cons, List.not_mem_nil, or_false] at h
        rcases h with rfl | rfl
        · exact hlast
        · exact hb
    · exact ⟨_, [], hm, by simp, .inr ⟨last, bp, by simpa using hlast, hb, by simp [hb], by simp⟩⟩

theorem landed (hs : Shape asked q.bActf) (hf : bp.addr ∉ q.bActf.map Buf.addr) (hpass : Passes q.bActf bp) :
    ∃ l₁ l₂, Landed asked q bp l₁ l₂ := by
  obtain ⟨p, u, hp, hu, hq | ⟨x, o, hx, ho, hask, hq⟩⟩ := hs
  · cases u with
    | nil => exact ⟨_, _, landed_marked (by simpa [hq] using hp)⟩
    | cons x rest =>
      have hx := hu x (by simp)
      by_cases hb : bp.ordered = true
      · obtain ⟨l₁, h⟩ := landed_ordered hq hp hx hb
        exact ⟨l₁, [], h⟩
      · rw [Bool.not_eq_true] at hb
        obtain ⟨r₁, r₂, rfl, he⟩ := disksort_plain hq hp hx hb
        refine ⟨p ++ x :: r₁, r₂, by simp [he], by simp [hq],
          fun b h => hu b (by simp [h]), by simp [hb], p, x :: (r₁ ++ bp :: r₂), hp, ?_, .inl (by simp)⟩
        intro b h
        by_cases hbp : b = bp
        · rw [hbp, hb]
        · exact hu b (by simp_all)
  · by_cases hb : bp.ordered = true
    · obtain ⟨l₁, h⟩ := landed_ordered hq hp hx hb
      exact ⟨l₁, [], h⟩
    · rw [Bool.not_eq_true] at hb
      obtain ⟨r₁, r₂, rfl, he⟩ := (disksort_between bp hq hp hx ho).1 hpass hb
      refine ⟨p ++ x :: o :: r₁, r₂, by simp [he], by simp [hq],
        fun b h => hu b (by simp [h]), by simp [hb], p, r₁ ++ bp :: r₂, hp, ?_, .inr ⟨x, o, hx, ho, ?_, by simp⟩⟩
      · intro b h
        by_cases hbp : b = bp
        · rw [hbp, hb]
        · exact hu b (by simp_all)
      · rw [Function.update_of_ne, hask]
        intro hab
        exact hf (by rw [← hab, hq]; simp)

/-! ## Steps -/

theorem barrierInv_init : BarrierInv .init :=
  ⟨⟨[], [], by simp, by simp, .inl rfl⟩, by simp [Barrier, Trace.init], by simp [Trace.init], by simp [Trace.init],
    by simp [Trace.init]⟩

theorem barrierInv_insert {t : Trace} (h : BarrierInv t) (hf : bp.addr ∉ t.q.bActf.map Buf.addr)
    (hpass : Passes t.q.bActf bp) : BarrierInv (step t (.insert bp)) := by
  obtain ⟨l₁, l₂, hl⟩ := landed h.shape hf hpass
  have hnew : ∀ b ∈ l₁ ++ l₂, b.addr ≠ bp.addr := fun b hb hab =>
    hf (by rw [← hl.marks.addrs, ← hab]; exact List.mem_map_of_mem hb)
  have hasked : ∀ b ∈ l₁ ++ l₂, Function.update t.asked bp.addr bp.ordered b.addr = t.asked b.addr := fun b hb =>
    Function.update_of_ne (hnew b hb) _ _
  have harr : ∀ b ∈ l₁ ++ l₂, Function.update t.arrived bp.addr t.inserted.length b.addr = t.arrived b.addr :=
    fun b hb => Function.update_of_ne (hnew b hb) _ _
  have hpast : ∀ b ∈ l₁ ++ l₂, t.arrived b.addr < t.inserted.length := fun b hb => by
    obtain ⟨c, hc, hab, -⟩ := hl.marks.mem hb
    rw [hab]; exact h.past c hc
  have hmarked : ∀ b ∈ l₁ ++ l₂, t.asked b.addr = true → b.ordered = true := fun b hb ha => by
    obtain ⟨c, hc, hab, ho⟩ := hl.marks.mem hb
    exact ho (h.marked c hc (hab ▸ ha))
  -- The old requests are pairwise in order whatever has been marked since.
  have hold : (l₁ ++ l₂).Pairwise fun a b =>
      (t.asked a.addr ∨ t.asked b.addr) → t.arrived a.addr < t.arrived b.addr := by
    have hb := h.barrier
    rw [Barrier, ← List.pairwise_map (f := Buf.addr)
      (R := fun a b => (t.asked a ∨ t.asked b) → t.arrived a < t.arrived b)] at hb
    rw [← hl.marks.addrs, List.pairwise_map] at hb
    exact hb
  refine ⟨by simpa only [step, hl.chain] using hl.shape, ?_, ?_, nodup_disksort h.nodup hf, ?_⟩
  · simp only [Barrier, step, hl.chain, List.pairwise_append, List.pairwise_cons] at hold ⊢
    refine ⟨hold.1.imp_of_mem fun ha hb => ?_, ⟨fun b hb => ?_, hold.2.1.imp_of_mem fun ha hb => ?_⟩,
      fun a ha b hb => ?_⟩
    · rw [hasked _ (by simp [ha]), hasked _ (by simp [hb]), harr _ (by simp [ha]), harr _ (by simp [hb])]; exact id
    · -- Behind `bp` there is neither an ordered request, nor anything if `bp` is one.
      rw [hasked b (by simp [hb]), Function.update_self]
      rintro (ho | ho)
      · rw [hl.ordered ho] at hb; cases hb
      · have := hmarked b (by simp [hb]) ho
        rw [hl.behind b hb] at this; cases this
    · rw [hasked _ (by simp [ha]), hasked _ (by simp [hb]), harr _ (by simp [ha]), harr _ (by simp [hb])]; exact id
    · rcases List.mem_cons.1 hb with rfl | hb
      · intro _
        rw [harr a (by simp [ha]), Function.update_self]
        exact hpast a (by simp [ha])
      · rw [hasked a (by simp [ha]), hasked b (by simp [hb]), harr a (by simp [ha]), harr b (by simp [hb])]
        exact hold.2.2 a ha b hb
  · intro b hb ha
    simp only [step, hl.chain] at hb ha
    by_cases hbp : b = bp
    · subst hbp; simpa using ha
    · have hb' : b ∈ l₁ ++ l₂ := by simp_all
      exact hmarked b hb' (by rwa [hasked b hb'] at ha)
  · intro b hb
    simp only [step, hl.chain, List.length_append, List.length_singleton] at hb ⊢
    by_cases hbp : b = bp
    · subst hbp; rw [Function.update_self]; omega
    · have hb' : b ∈ l₁ ++ l₂ := by simp_all
      rw [harr b hb']
      have := hpast b hb'
      omega

theorem shape_tail (h : Shape asked l) : Shape asked l.tail := by
  obtain ⟨p, u, hp, hu, rfl | ⟨x, o, hx, ho, hask, rfl⟩⟩ := h
  · cases p with
    | nil => exact ⟨[], u.tail, by simp, fun b hb => hu b (List.mem_of_mem_tail hb), .inl rfl⟩
    | cons a p => exact ⟨p, u, fun b hb => hp b (by simp [hb]), hu, .inl rfl⟩
  · cases p with
    | nil => exact ⟨[o], u, by simpa using ho, hu, .inl rfl⟩
    | cons a p => exact ⟨p, u, fun b hb => hp b (by simp [hb]), hu, .inr ⟨x, o, hx, ho, hask, rfl⟩⟩

theorem barrierInv_remove {t : Trace} (h : BarrierInv t) : BarrierInv (step t .remove) where
  shape := shape_tail h.shape
  barrier := h.barrier.sublist (List.tail_sublist _)
  marked b hb := h.marked b (List.mem_of_mem_tail hb)
  nodup := h.nodup.sublist ((List.tail_sublist _).map _)
  past b hb := h.past b (List.mem_of_mem_tail hb)

/-- A plain request that does not pass ends up in front of an ordered one that
came before it. -/
theorem not_barrier_insert {t : Trace} (h : BarrierInv t) (hf : bp.addr ∉ t.q.bActf.map Buf.addr)
    (hpass : ¬Passes t.q.bActf bp) : ¬Barrier (step t (.insert bp)) := by
  obtain ⟨p, u, hp, hu, hq | ⟨x, o, hx, ho, hask, hq⟩⟩ := h.shape
  · -- A marked prefix and an unmarked rest: every insertion passes.
    refine absurd ?_ hpass
    rcases u with _ | ⟨x, _ | ⟨y, u⟩⟩
    · simp [Passes, hq, List.dropWhile_eq_nil_iff.2 hp]
    · simp [Passes, hq, dropWhile_marked hp (hu x (by simp))]
    · rw [Passes, hq, dropWhile_marked hp (hu x (by simp))]
      exact .inr (.inl (by simp [hu y (by simp)]))
  · obtain ⟨he, hb⟩ := (disksort_between bp hq hp hx ho).2 hpass
    have hmem : o ∈ t.q.bActf := by rw [hq]; simp
    have hne : o.addr ≠ bp.addr := fun hab => hf (by rw [← hab]; exact List.mem_map_of_mem hmem)
    intro hbar
    simp only [Barrier, step, he] at hbar
    have hpair := List.pairwise_cons.1 ((List.pairwise_cons.1 (List.pairwise_append.1 hbar).2.1).2)
    have hlt := hpair.1 o (by simp) (.inr (by rw [Function.update_of_ne hne, hask]))
    rw [Function.update_self, Function.update_of_ne hne] at hlt
    have := h.past o hmem
    omega

/-- In every run of `disksort` and head removals, a request that asked for
`B_ORDER` stays in arrival order with every other queued request, in every state
of the run, exactly when each insertion passes the ordered request that an
unmarked one stands in front of. -/
theorem barrier_iff (ops : List Op) (hf : Along step Fresh .init ops) :
    (∀ t ∈ states step .init ops, Barrier t) ↔ Along step PassesOp .init ops := by
  refine states_iff_along (I := BarrierInv) (fun t op h hfr hp => ?_) (fun t h => h.barrier)
    (fun t op h hfr hp => ?_) barrierInv_init hf
  · cases op with
    | insert bp => exact barrierInv_insert h hfr hp
    | remove => exact barrierInv_remove h
  · cases op with
    | insert bp => exact not_barrier_insert h hfr hp
    | remove => exact absurd trivial hp

/-- A queue of two, an ordered request behind it, and a later request at a
larger cylinder: it stays behind the barrier. -/
theorem barrier_iff_kept :
    let ops : List Op := [.insert ⟨1, 0, 10, 0⟩, .insert ⟨2, B_ORDER, 20, 0⟩, .insert ⟨3, 0, 30, 0⟩]
    (final step .init ops).q.bActf.map Buf.addr = [1, 2, 3] ∧ ∀ t ∈ states step .init ops, Barrier t := by
  refine ⟨by decide, (barrier_iff _ ?_).2 ?_⟩ <;> decide

/-- One request at cylinder 10, an ordered one at 20, then one at 15: the
elevator puts the last one between the two. -/
theorem barrier_passed :
    let ops : List Op := [.insert ⟨1, 0, 10, 0⟩, .insert ⟨2, B_ORDER, 20, 0⟩, .insert ⟨3, 0, 15, 0⟩]
    Along step Fresh .init ops ∧ (final step .init ops).q.bActf.map Buf.addr = [1, 3, 2] ∧
      ¬∀ t ∈ states step .init ops, Barrier t := by
  refine ⟨by decide, by decide, fun h => ?_⟩
  exact absurd (h _ (final_mem_states _ _ _)) (by decide)

end BsdKernel.Disksort
