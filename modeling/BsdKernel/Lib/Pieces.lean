import Mathlib.Data.List.Basic
import Mathlib.Data.List.TakeDrop
import Mathlib.Data.List.TakeWhile
import Mathlib.Order.Defs.LinearOrder
/-!
# Queues of pieces that arrive in any order

Pieces of a whole are kept in order and without overlap. An arriving piece is cut
in front where the piece before it reaches into it, and dropped if that has all of
it; the pieces behind it are cut where it reaches into them, or taken out.

`Cutter` is what the operations use of a piece. `Placed` says that the pieces that
satisfy `P` lie at the places from `lo` to `hi` and that the comparisons are those of
the places, which arithmetic modulo a power of two need not give for all pieces.
`insert_some` and `insert_none` say what an arrival does to the places covered.
-/

namespace BsdKernel.Lib

/-- How pieces are compared and cut. -/
structure Cutter (α : Type*) where
  /-- The first piece begins after the second. -/
  after : α → α → Bool
  /-- How far the first piece reaches behind the start of the second. -/
  reach : α → α → Int
  len : α → Int
  /-- The piece without so much at its front. -/
  cut : Int → α → α

variable {α : Type*} (C : Cutter α)

/-- The piece without what the one before it has, if anything is left. -/
def Cutter.trimFront (f : α) : Option α → Option α
  | none => some f
  | some p => if C.reach p f > 0 then if C.reach p f ≥ C.len f then none else some (C.cut (C.reach p f) f) else some f

/-- The pieces behind `f` without what it has. -/
def Cutter.trimAfter (f : α) : List α → List α
  | [] => []
  | q :: l =>
    if C.reach f q > 0 then if C.reach f q < C.len q then C.cut (C.reach f q) q :: l else Cutter.trimAfter f l
    else q :: l

/-- The queue with a piece put in its place, or `none` if it brings nothing. -/
def Cutter.insert (q : List α) (f : α) : Option (List α) :=
  let before := q.takeWhile fun x => !C.after x f
  let behind := q.dropWhile fun x => !C.after x f
  (C.trimFront f before.getLast?).map fun f => before ++ f :: C.trimAfter f behind

/-- The pieces that satisfy `P` lie from `lo` to `hi`, and are compared and cut accordingly. -/
structure Placed (P : α → Prop) (lo hi : α → Int) : Prop where
  le : ∀ {a}, P a → lo a ≤ hi a
  after_iff : ∀ {a b}, P a → P b → (C.after a b = true ↔ lo b < lo a)
  reach_eq : ∀ {a b}, P a → P b → C.reach a b = hi a - lo b
  len_eq : ∀ {a}, P a → C.len a = hi a - lo a
  cut : ∀ {a i}, P a → 0 < i → i < hi a - lo a →
    P (C.cut i a) ∧ lo (C.cut i a) = lo a + i ∧ hi (C.cut i a) = hi a

/-- Pieces in order and without overlap. -/
structure InOrder (P : α → Prop) (lo hi : α → Int) (q : List α) : Prop where
  all : ∀ a ∈ q, P a
  apart : q.Pairwise fun a b => hi a ≤ lo b

/-- The places that the pieces cover. -/
def covers (lo hi : α → Int) (q : List α) (i : Int) : Prop := ∃ a ∈ q, lo a ≤ i ∧ i < hi a

section Covers
variable {lo hi : α → Int} {a : α} {l m : List α} {i : Int}

@[simp] theorem covers_nil : ¬covers lo hi [] i := by simp [covers]

@[simp] theorem covers_cons : covers lo hi (a :: l) i ↔ lo a ≤ i ∧ i < hi a ∨ covers lo hi l i := by
  simp [covers]

@[simp] theorem covers_append : covers lo hi (l ++ m) i ↔ covers lo hi l i ∨ covers lo hi m i := by
  simp [covers, or_and_right, exists_or]

end Covers

variable {C} {P : α → Prop} {lo hi : α → Int} {f a : α} {l q : List α}

theorem InOrder.nil : InOrder P lo hi [] := ⟨by simp, .nil⟩

theorem inOrder_cons : InOrder P lo hi (a :: l) ↔ P a ∧ (∀ b ∈ l, hi a ≤ lo b) ∧ InOrder P lo hi l := by
  constructor
  · rintro ⟨hall, hapart⟩
    obtain ⟨ha, hl⟩ := List.pairwise_cons.1 hapart
    exact ⟨hall a List.mem_cons_self, ha, fun b hb => hall b (List.mem_cons_of_mem a hb), hl⟩
  · rintro ⟨ha, hal, hl⟩
    exact ⟨List.forall_mem_cons.2 ⟨ha, hl.all⟩, List.pairwise_cons.2 ⟨hal, hl.apart⟩⟩

theorem InOrder.left {m : List α} (h : InOrder P lo hi (l ++ m)) : InOrder P lo hi l :=
  ⟨fun a ha => h.all a (List.mem_append_left m ha), (List.pairwise_append.1 h.apart).1⟩

theorem InOrder.right {m : List α} (h : InOrder P lo hi (l ++ m)) : InOrder P lo hi m :=
  ⟨fun a ha => h.all a (List.mem_append_right l ha), (List.pairwise_append.1 h.apart).2.1⟩

/-! ## The pieces behind -/

/-- The pieces behind keep what `f` does not reach. -/
theorem trimAfter_spec (hC : Placed C P lo hi) (hl : InOrder P lo hi l) (hf : P f) (hlo : ∀ b ∈ l, lo f ≤ lo b) :
    InOrder P lo hi (C.trimAfter f l) ∧ (∀ b ∈ C.trimAfter f l, hi f ≤ lo b) ∧
      ∀ i, covers lo hi (C.trimAfter f l) i ↔ covers lo hi l i ∧ hi f ≤ i := by
  induction l with
  | nil => simp [Cutter.trimAfter, InOrder.nil]
  | cons q l ih =>
    obtain ⟨hq, hql, hl'⟩ := inOrder_cons.1 hl
    have hqle := hC.le hq
    have hflo := hlo q List.mem_cons_self
    -- a place of a piece behind `q` is behind the end of `q`
    have hbehind : ∀ i, covers lo hi l i → hi q ≤ i := by
      rintro i ⟨b, hb, hbi, -⟩
      have := hql b hb
      omega
    rw [Cutter.trimAfter, hC.reach_eq hf hq, hC.len_eq hq]
    split_ifs with hover hpart
    · obtain ⟨hP, hcl, hch⟩ := hC.cut hq hover hpart
      refine ⟨inOrder_cons.2 ⟨hP, fun b hb => hch ▸ hql b hb, hl'⟩, ?_, fun i => ?_⟩
      · intro b hb
        rcases List.mem_cons.1 hb with rfl | hb
        · omega
        · have := hql b hb
          omega
      · rw [covers_cons, covers_cons, hcl, hch]
        have := hbehind i
        constructor
        · rintro (h | h)
          · exact ⟨.inl (by omega), by omega⟩
          · exact ⟨.inr h, by have := this h; omega⟩
        · rintro ⟨h | h, hi⟩
          · exact .inl (by omega)
          · exact .inr h
    · obtain ⟨hin, hlow, hcov⟩ := ih hl' fun b hb => hlo b (List.mem_cons_of_mem q hb)
      refine ⟨hin, hlow, fun i => ?_⟩
      rw [hcov, covers_cons]
      constructor
      · exact fun h => ⟨.inr h.1, h.2⟩
      · rintro ⟨h | h, hi⟩
        · omega
        · exact ⟨h, hi⟩
    · refine ⟨hl, ?_, fun i => ?_⟩
      · intro b hb
        rcases List.mem_cons.1 hb with rfl | hb
        · omega
        · have := hql b hb
          omega
      · constructor
        · intro h
          refine ⟨h, ?_⟩
          rcases covers_cons.1 h with h | h
          · omega
          · have := hbehind i h
            omega
        · exact And.left

/-! ## The piece in its place -/

/-- What stands in front of the arriving piece begins no later, and what stands behind it later. -/
theorem split_spec (hC : Placed C P lo hi) (hq : InOrder P lo hi q) (hf : P f) :
    (∀ b ∈ q.takeWhile fun x => !C.after x f, lo b ≤ lo f) ∧ ∀ b ∈ q.dropWhile fun x => !C.after x f, lo f < lo b := by
  induction q with
  | nil => simp
  | cons a q ih =>
    obtain ⟨ha, haq, hq'⟩ := inOrder_cons.1 hq
    have hafter := hC.after_iff ha hf
    cases h : C.after a f with
    | true =>
      have hlt := hafter.1 h
      rw [List.takeWhile_cons_of_neg (by simp [h]), List.dropWhile_cons_of_neg (by simp [h])]
      refine ⟨by simp, fun b hb => ?_⟩
      rcases List.mem_cons.1 hb with rfl | hb
      · exact hlt
      · have := haq b hb
        have := hC.le ha
        omega
    | false =>
      have hle : lo a ≤ lo f := by
        by_contra hgt
        rw [hafter.2 (by omega)] at h
        cases h
      rw [List.takeWhile_cons_of_pos (by simp [h]), List.dropWhile_cons_of_pos (by simp [h])]
      obtain ⟨htake, hdrop⟩ := ih hq'
      exact ⟨List.forall_mem_cons.2 ⟨hle, htake⟩, hdrop⟩

/-- The last piece in front is the only one that can reach into the arriving one. -/
theorem front_spec (hC : Placed C P lo hi) (hl : InOrder P lo hi l) (hf : P f) (hlo : ∀ b ∈ l, lo b ≤ lo f) :
    match C.trimFront f l.getLast? with
    | none => ∃ p ∈ l, lo p ≤ lo f ∧ lo f < hi p ∧ hi f ≤ hi p
    | some g => P g ∧ hi g = hi f ∧ lo f ≤ lo g ∧ (∀ b ∈ l, hi b ≤ lo g) ∧
        ∀ i, lo f ≤ i → i < lo g → covers lo hi l i := by
  rcases List.eq_nil_or_concat l with rfl | ⟨m, p, rfl⟩
  · exact ⟨hf, rfl, Int.le_refl _, by simp, fun i h₁ h₂ => by omega⟩
  · rw [List.concat_eq_append] at hl hlo ⊢
    have hp := hl.all p (by simp)
    have hplo := hlo p (by simp)
    have hm : ∀ b ∈ m, hi b ≤ lo p := fun b hb => (List.pairwise_append.1 hl.apart).2.2 b hb p (by simp)
    have hple := hC.le hp
    rw [List.getLast?_append_cons, List.getLast?_singleton, Cutter.trimFront, hC.reach_eq hp hf, hC.len_eq hf]
    split_ifs with hover hall
    · exact ⟨p, by simp, hplo, by omega, by omega⟩
    · obtain ⟨hP, hcl, hch⟩ := hC.cut hf hover (by omega)
      refine ⟨hP, hch, by omega, ?_, fun i h₁ h₂ => ⟨p, by simp, by omega, by omega⟩⟩
      intro b hb
      rcases List.mem_append.1 hb with hb | hb
      · have := hm b hb
        omega
      · obtain rfl := List.mem_singleton.1 hb
        omega
    · refine ⟨hf, rfl, Int.le_refl _, ?_, fun i h₁ h₂ => by omega⟩
      intro b hb
      rcases List.mem_append.1 hb with hb | hb
      · have := hm b hb
        omega
      · obtain rfl := List.mem_singleton.1 hb
        omega

theorem insert_none (hC : Placed C P lo hi) (hq : InOrder P lo hi q) (hf : P f) (h : C.insert q f = none) :
    ∃ p ∈ q, lo p ≤ lo f ∧ lo f < hi p ∧ hi f ≤ hi p := by
  have hsplit : (q.takeWhile fun x => !C.after x f) ++ (q.dropWhile fun x => !C.after x f) = q :=
    List.takeWhile_append_dropWhile
  have hspec := front_spec hC (hsplit ▸ hq : InOrder P lo hi (_ ++ _)).left hf (split_spec hC hq hf).1
  rw [Option.map_eq_none_iff.1 h] at hspec
  obtain ⟨p, hp, h⟩ := hspec
  exact ⟨p, (List.takeWhile_sublist _).subset hp, h⟩

/-- A piece that is put in its place adds its places to those covered. -/
theorem insert_some (hC : Placed C P lo hi) (hq : InOrder P lo hi q) (hf : P f) {q' : List α}
    (h : C.insert q f = some q') :
    InOrder P lo hi q' ∧ ∀ i, covers lo hi q' i ↔ covers lo hi q i ∨ lo f ≤ i ∧ i < hi f := by
  obtain ⟨hbefore, hbehind⟩ := split_spec hC hq hf
  have hsplit : (q.takeWhile fun x => !C.after x f) ++ (q.dropWhile fun x => !C.after x f) = q :=
    List.takeWhile_append_dropWhile
  unfold Cutter.insert at h
  generalize (q.takeWhile fun x => !C.after x f) = l at *
  generalize (q.dropWhile fun x => !C.after x f) = m at *
  subst hsplit
  obtain ⟨g, hg, rfl⟩ := Option.map_eq_some_iff.1 h
  have hspec := front_spec hC hq.left hf hbefore
  rw [hg] at hspec
  obtain ⟨hPg, hhi, hlog, hends, hgap⟩ := hspec
  have hlm := (List.pairwise_append.1 hq.apart).2.2
  -- the cut piece still begins before those behind it
  have hgm : ∀ b ∈ m, lo g ≤ lo b := by
    intro b hb
    have hfb := hbehind b hb
    by_contra hlt
    obtain ⟨c, hc, -, hhic⟩ := hgap (lo g - 1) (by omega) (by omega)
    have := hlm c hc b hb
    omega
  obtain ⟨hin, hlow, hcov⟩ := trimAfter_spec hC hq.right hPg hgm
  refine ⟨⟨?_, ?_⟩, fun i => ?_⟩
  · intro a ha
    rcases List.mem_append.1 ha with ha | ha
    · exact hq.left.all a ha
    · rcases List.mem_cons.1 ha with rfl | ha
      · exact hPg
      · exact hin.all a ha
  · refine List.pairwise_append.2 ⟨hq.left.apart, List.pairwise_cons.2 ⟨hlow, hin.apart⟩, fun a ha b hb => ?_⟩
    have := hends a ha
    have := hC.le hPg
    rcases List.mem_cons.1 hb with rfl | hb
    · exact hends a ha
    · have := hlow b hb
      omega
  · rw [covers_append, covers_cons, covers_append, hcov]
    have hm : covers lo hi m i → lo f < i + 1 := by
      rintro ⟨b, hb, h₁, -⟩
      have := hbehind b hb
      omega
    constructor
    · rintro (h | h | h)
      · exact .inl (.inl h)
      · exact .inr (by omega)
      · exact .inl (.inr h.1)
    · rintro ((h | h) | h)
      · exact .inl h
      · have := hm h
        by_cases hend : hi g ≤ i
        · exact .inr (.inr ⟨h, hend⟩)
        · by_cases hstart : lo g ≤ i
          · exact .inr (.inl ⟨hstart, by omega⟩)
          · exact .inl (hgap i (by omega) (by omega))
      · by_cases hstart : lo g ≤ i
        · exact .inr (.inl ⟨hstart, by omega⟩)
        · exact .inl (hgap i h.1 (by omega))

/-! ## Where the pieces of a queue come from -/

section Parts
variable {b : α} {q' : List α}

/-- A piece, or what is left of it. -/
def Cutter.Rest (C : Cutter α) (a b : α) : Prop := b = a ∨ ∃ i, 0 < i ∧ i < C.len a ∧ b = C.cut i a

theorem mem_trimAfter (h : b ∈ C.trimAfter f l) : ∃ a ∈ l, C.Rest a b := by
  induction l with
  | nil => cases h
  | cons q l ih =>
    rw [Cutter.trimAfter] at h
    split_ifs at h with hover hpart
    · rcases List.mem_cons.1 h with rfl | h
      · exact ⟨q, List.mem_cons_self, .inr ⟨_, hover, hpart, rfl⟩⟩
      · exact ⟨b, List.mem_cons_of_mem q h, .inl rfl⟩
    · obtain ⟨a, ha, hab⟩ := ih h
      exact ⟨a, List.mem_cons_of_mem q ha, hab⟩
    · exact ⟨b, h, .inl rfl⟩

theorem trimAfter_keeps (h : a ∈ l) : (∃ b ∈ C.trimAfter f l, C.Rest a b) ∨ C.len a ≤ C.reach f a := by
  induction l with
  | nil => cases h
  | cons q l ih =>
    rw [Cutter.trimAfter]
    split_ifs with hover hpart
    · rcases List.mem_cons.1 h with rfl | h
      · exact .inl ⟨_, List.mem_cons_self, .inr ⟨_, hover, hpart, rfl⟩⟩
      · exact .inl ⟨a, List.mem_cons_of_mem _ h, .inl rfl⟩
    · rcases List.mem_cons.1 h with rfl | h
      · exact .inr (Int.not_lt.1 hpart)
      · exact ih h
    · exact .inl ⟨a, h, .inl rfl⟩

theorem trimFront_rest {p : Option α} {g : α} (h : C.trimFront f p = some g) : C.Rest f g := by
  cases p with
  | none => exact .inl (Option.some.inj h).symm
  | some p =>
    rw [Cutter.trimFront] at h
    split_ifs at h with hover hall
    · exact .inr ⟨_, hover, Int.not_le.1 hall, (Option.some.inj h).symm⟩
    · exact .inl (Option.some.inj h).symm

/-- The queue is split where the new piece goes, which nothing trims if it is the first. -/
theorem insert_parts (h : C.insert q f = some q') : ∃ l m g, q = l ++ m ∧ q' = l ++ g :: C.trimAfter g m ∧
    C.Rest f g ∧ (l = [] → g = f) ∧ (∀ a ∈ l, C.after a f = false) ∧ ∀ a, m.head? = some a → C.after a f = true := by
  obtain ⟨g, hg, rfl⟩ := Option.map_eq_some_iff.1 h
  refine ⟨_, _, g, List.takeWhile_append_dropWhile.symm, rfl, trimFront_rest hg, fun hnil => ?_, fun a ha => ?_, fun a ha => ?_⟩
  · rw [hnil] at hg
    exact (Option.some.inj hg).symm
  · simpa using List.mem_takeWhile_imp ha
  · have := List.head?_dropWhile_not (fun x => !C.after x f) q
    rw [ha] at this
    simpa using this

end Parts

end BsdKernel.Lib
