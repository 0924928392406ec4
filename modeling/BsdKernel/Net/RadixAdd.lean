import BsdKernel.Net.RadixTree
/-!
# The parts of adding a route

A node of the path gets the record of the new route when the route belongs on
its list (`enterAt`), which is the highest node the loop of `rn_addroute` climbs
to (`liftMask_eq`). The path is then right for the new route (`ctx_enter`). A
chain takes the new leaf in its place (`joinChain_spec`), and a new node first
takes over what belongs to it from below (`promote_spec`).
-/

namespace BsdKernel.Radix
open Lib PTree

variable {sh : Shape}
variable {p q lo b : Nat} {mk : List RadixMask} {cs : List Crumb} {x y : Leaf}

/-! ## Mask lists -/

/-- The length of a route's mask, read from `rn_b`. -/
def Route.plen (sh : Shape) (ρ : Route) : Nat := if ρ.normal then (-1 - ρ.b).toNat else sh.n0

theorem Net.plen_eq {ρ : Route} (h : Net sh p ρ) : ρ.plen sh = p := by
  unfold Route.plen
  rw [h.normal, h.b, indexOf]
  by_cases hp : p = sh.n0
  · simp [hp]
  · rw [if_neg hp]
    simp only [ne_eq, hp, not_false_eq_true, decide_true, if_true]
    omega

/-- A change of the one node of a path that lists masks of length `p`. -/
def atLen (p : Nat) (f : Inner → Inner) (lo b : Nat) (d : Inner) : Inner := if lo ≤ p ∧ p ≤ b then f d else d

/-- The node with the record of `ρ` on its list. -/
def enter (ρ : Route) (d : Inner) : Inner := { d with mklist := ((enterMask ρ d.mklist).map (·.1)).getD d.mklist }

/-- `enter` where `ρ` belongs. -/
def enterAt (sh : Shape) (ρ : Route) (lo b : Nat) (d : Inner) : Inner :=
  if ρ.mask.isSome then atLen (ρ.plen sh) (enter ρ) lo b d else d

theorem enterMask_spec {tt : Route} (hs : mk.Pairwise fun m m' => m.b < m'.b) (hne : ∀ m ∈ mk, m.b ≠ tt.b) :
    ∃ mk', enterMask tt mk = some (mk', tt.pair) ∧ (∀ m, m ∈ mk' ↔ m = rnNewRadixMask tt ∨ m ∈ mk) ∧
      mk'.Pairwise fun m m' => m.b < m'.b := by
  induction mk with
  | nil => exact ⟨_, rfl, by simp, by simp⟩
  | cons m ms ih =>
    obtain ⟨hm, hms⟩ := List.pairwise_cons.1 hs
    rw [enterMask]
    by_cases hlt : m.b < tt.b
    · obtain ⟨mk', heq, hmem, hsorted⟩ := ih hms fun m' hm' => hne m' (List.mem_cons_of_mem m hm')
      refine ⟨m :: mk', by rw [if_pos hlt, heq]; rfl, ?_, ?_⟩
      · intro m'
        rw [List.mem_cons, List.mem_cons, hmem]
        tauto
      · refine List.pairwise_cons.2 ⟨?_, hsorted⟩
        intro m' hm'
        rcases (hmem m').1 hm' with rfl | hm'
        · exact hlt
        · exact hm m' hm'
    · have hgt : tt.b < m.b := by
        have := hne m List.mem_cons_self
        omega
      refine ⟨rnNewRadixMask tt :: m :: ms, by rw [if_neg hlt, if_pos hgt], by simp, ?_⟩
      refine List.pairwise_cons.2 ⟨?_, hs⟩
      intro m' hm'
      rw [b_rnNewRadixMask]
      rcases List.mem_cons.1 hm' with rfl | hm'
      · exact hgt
      · have := hm m' hm'
        omega

/-- No route of `A` that agrees with `ρ` all the way has its mask. -/
def Fresh (sh : Shape) (ρ : Route) (σ : Route) : Prop :=
  Agree sh.n0 (bitSet σ.key) (bitSet ρ.key) sh.nbits → σ.mask ≠ ρ.mask

section Lists
variable {lo b p : Nat} {mk : List RadixMask} {A : List Route} {ρ : Route}

theorem MkOk.ne (h : MkOk sh lo b mk A) (hρ : Net sh p ρ) (hf : ∀ σ ∈ A, Fresh sh ρ σ)
    (hag : ∀ σ ∈ A, Agree sh.n0 (bitSet σ.key) (bitSet ρ.key) b) : ∀ m ∈ mk, m.b ≠ ρ.b := by
  intro m hm hb
  obtain ⟨σ, hσ, ⟨q, hq, hlo, hqb⟩, rfl⟩ := (h.mem m).1 hm
  rw [b_rnNewRadixMask, hq.b, hρ.b] at hb
  obtain rfl := indexOf_inj hq.n0_le hρ.n0_le hb
  obtain ⟨hall, hmask⟩ := Listed.inj ⟨q, hq, hlo, hqb⟩ ⟨q, hρ, hlo, hqb⟩ (hag σ hσ) (by rw [hq.b, hρ.b])
  exact hf σ hσ hall hmask

/-- A list stays right when a new route comes in below. -/
theorem MkOk.enterAt (slot : Pair) (h : MkOk sh lo b mk A) (hρ : RouteOk sh ρ) (hf : ∀ σ ∈ A, Fresh sh ρ σ)
    (hag : ∀ σ ∈ A, Agree sh.n0 (bitSet σ.key) (bitSet ρ.key) b) :
    MkOk sh lo b (enterAt sh ρ lo b ⟨slot, mk⟩).mklist (ρ :: A) := by
  have hold : ¬Listed sh lo b ρ → MkOk sh lo b mk (ρ :: A) := by
    intro hn
    refine ⟨?_, h.sorted⟩
    intro m
    rw [h.mem]
    constructor
    · rintro ⟨σ, hσ, hl, rfl⟩
      exact ⟨σ, List.mem_cons_of_mem _ hσ, hl, rfl⟩
    · rintro ⟨σ, hσ, hl, rfl⟩
      rcases List.mem_cons.1 hσ with rfl | hσ
      · exact absurd hl hn
      · exact ⟨σ, hσ, hl, rfl⟩
  unfold Radix.enterAt
  by_cases hm : ρ.mask.isSome
  · obtain ⟨p, hp⟩ := hρ.net_of_mask hm
    rw [if_pos hm, hp.plen_eq, atLen]
    by_cases hr : lo ≤ p ∧ p ≤ b
    · obtain ⟨mk', heq, hmem, hsorted⟩ := enterMask_spec h.sorted (h.ne hp hf hag)
      rw [if_pos hr, enter, heq]
      refine ⟨?_, hsorted⟩
      intro m
      dsimp only [Option.map_some, Option.getD_some]
      rw [hmem, h.mem]
      constructor
      · rintro (rfl | ⟨σ, hσ, hl, rfl⟩)
        · exact ⟨ρ, List.mem_cons_self, ⟨p, hp, hr.1, hr.2⟩, rfl⟩
        · exact ⟨σ, List.mem_cons_of_mem _ hσ, hl, rfl⟩
      · rintro ⟨σ, hσ, hl, rfl⟩
        rcases List.mem_cons.1 hσ with rfl | hσ
        · exact .inl rfl
        · exact .inr ⟨σ, hσ, hl, rfl⟩
    · rw [if_neg hr]
      refine hold ?_
      rintro ⟨q, hq, h1, h2⟩
      obtain rfl := hp.unique hq
      exact hr ⟨h1, h2⟩
  · rw [if_neg hm]
    refine hold ?_
    rintro ⟨q, hq, -, -⟩
    rw [hq.mask] at hm
    exact hm rfl

end Lists

@[simp] theorem slot_enterAt (ρ : Route) (lo b : Nat) (d : Inner) : (enterAt sh ρ lo b d).slot = d.slot := by
  unfold enterAt atLen
  split
  · split <;> rfl
  · rfl

/-! ## Lifting -/

theorem lifts_cons {c : Crumb} (hb : sh.n0 ≤ c.b) : lifts (-1 - indexOf sh p) (c :: cs) = decide (p ≤ c.b) := by
  rw [lifts]
  congr 1
  exact propext (index_le_bit hb)

theorem highest_mem {b : Int} {d : Inner} (h : highest b cs = some d) : ∃ x ∈ cs, x.d = d := by
  induction cs with
  | nil => cases h
  | cons c cs ih =>
    rw [highest] at h
    split at h
    · obtain ⟨x, hx, rfl⟩ := ih h
      exact ⟨x, List.mem_cons_of_mem c hx, rfl⟩
    · exact ⟨c, List.mem_cons_self, Option.some.inj h⟩

theorem highest_some (b : Int) (c : Crumb) (cs : List Crumb) : ∃ d, highest b (c :: cs) = some d := by
  induction cs generalizing c with
  | nil => exact ⟨c.d, rfl⟩
  | cons c' cs ih =>
    rw [highest]
    split
    · exact ih c'
    · exact ⟨c.d, rfl⟩

theorem atHighest_congr {b : Int} {f g : Inner → Inner} (h : ∀ d, highest b cs = some d → f d = g d) :
    atHighest b f cs = atHighest b g cs := by
  induction cs with
  | nil => rfl
  | cons c cs ih =>
    rw [highest] at h
    rw [atHighest, atHighest]
    split
    · next hl =>
      rw [if_pos hl] at h
      rw [ih h]
    · next hl =>
      rw [if_neg hl] at h
      rw [h c.d rfl]

/-- The node the climb ends at is the one that lists masks of length `p`. -/
theorem atHighest_eq {f : Inner → Inner} {c : Crumb} (hr : Rising (c :: cs)) (h0 : ∀ x ∈ c :: cs, sh.n0 ≤ x.b)
    (hp : p ≤ c.b) : atHighest (-1 - indexOf sh p) f (c :: cs) = mapPath (atLen p f) (c :: cs) := by
  induction cs generalizing c with
  | nil => simp [atHighest, lifts, mapPath, atLen, hp]
  | cons c' cs ih =>
    obtain ⟨hlo, hr'⟩ := hr
    have h0' : ∀ x ∈ c' :: cs, sh.n0 ≤ x.b := fun x hx => h0 x (List.mem_cons_of_mem c hx)
    rw [atHighest, lifts_cons (h0' c' List.mem_cons_self), mapPath, floor_cons]
    rw [floor_cons] at hlo
    by_cases hp' : p ≤ c'.b
    · rw [if_pos (by simpa using hp'), ih hr' h0' hp', atLen, if_neg (by omega)]
    · rw [if_neg (by simpa using hp'), atLen, if_pos (by omega), mapPath_same]
      intro x hx lo d
      have hlt := hr'.lt_floor x hx
      rw [floor_cons] at hlt
      rw [atLen, if_neg (by omega)]

/-- The mark a new leaf gets below a node that tests the bit before `lo`. -/
def markOf (sh : Shape) (lo : Nat) (ρ : Route) : Option Pair :=
  if ρ.mask.isSome ∧ ρ.plen sh < lo then some ρ.pair else none

/-- Lifting enters the new route where it belongs, and nowhere else. -/
theorem liftMask_eq {ρ : Route} (hρ : RouteOk sh ρ) (hr : Rising cs) (h0 : ∀ x ∈ cs, sh.n0 ≤ x.b)
    (hent : ρ.mask.isSome → ∀ x ∈ cs, ∃ mk, enterMask ρ x.d.mklist = some (mk, ρ.pair)) :
    liftMask ρ cs = (mapPath (enterAt sh ρ) cs, markOf sh (floor cs) ρ) := by
  unfold liftMask markOf
  by_cases hm : ρ.mask.isSome
  · obtain ⟨p, hp⟩ := hρ.net_of_mask hm
    have hen : enterAt sh ρ = atLen p (enter ρ) := by
      funext lo b d
      rw [enterAt, if_pos hm, hp.plen_eq]
    rw [hen, hp.plen_eq, hp.b, hm, Bool.true_and]
    cases cs with
    | nil => simp [lifts, mapPath]
    | cons c cs =>
      rw [lifts_cons (h0 c List.mem_cons_self), floor_cons]
      by_cases hpb : p ≤ c.b
      · obtain ⟨d, hd⟩ := highest_some (-1 - indexOf sh p) c cs
        obtain ⟨x, hx, rfl⟩ := highest_mem hd
        obtain ⟨mk, hmk⟩ := hent hm x hx
        rw [if_pos (by simpa using hpb), hd, Option.bind_some, hmk, ← atHighest_eq hr h0 hpb,
          if_pos ⟨rfl, by omega⟩]
        dsimp only
        rw [atHighest_congr]
        intro d' hd'
        rw [hd, Option.some.injEq] at hd'
        subst hd'
        rw [enter, hmk]
        rfl
      · rw [if_neg (by simpa using hpb), if_neg (by omega), mapPath_same]
        intro x hx lo d
        have hlt := hr.lt_floor x hx
        rw [floor_cons] at hlt
        rw [atLen, if_neg (by omega)]
  · have hen : enterAt sh ρ = fun _ _ d => d := by
      funext lo b d
      rw [enterAt, if_neg hm]
    rw [hen, if_neg (by simp [hm]), if_neg (by simp [hm]), mapPath_same]
    exact fun _ _ _ _ => rfl

/-! ## Chains -/

theorem rnRefines_maskOf (h0 : sh.n0 ≤ p) (hpq : p < q) (hq : q ≤ sh.nbits) :
    rnRefines (maskOf sh p) (maskOf sh q) = false := by
  have h8 := sh.n0_pos
  rw [maskOf, maskOf, if_neg (show ¬q = sh.n0 by omega)]
  split
  · refine rnRefines_shorter (p := 0) hq (by omega) ?_ ?_ (by omega)
    · rw [byteAt_rnZeros]
      rfl
    · exact fun b _ _ => bitSet_rnZeros sh b
  · refine rnRefines_shorter hq hpq (byteAt_maskKey_len (by omega)) ?_ (by omega)
    intro b hb hpb
    rw [bitSet_maskKey (by omega) hb, decide_eq_false_iff_not]
    omega

theorem rnLexobetter_maskOf (h0 : sh.n0 ≤ p) (hpq : p < q) (hq : q ≤ sh.nbits) :
    rnLexobetter (maskOf sh p) (maskOf sh q) = false := by
  rw [maskOf, maskOf, if_neg (show ¬q = sh.n0 by omega)]
  split
  · have hlen := byteAt_maskKey_len hq
    have hpos : byteAt (rnZeros sh) 0 ≠ byteAt (maskKey sh q) 0 := by
      intro heq
      rw [← heq, byteAt_rnZeros] at hlen
      change 0 = (q + 7) / 8 at hlen
      omega
    unfold rnLexobetter
    rw [if_neg, if_neg hpos]
    rw [byteAt_rnZeros]
    simp
  · exact rnLexobetter_shorter (by omega) hq hpq

theorem goesFirst_net {ρ σ : Route} (hρ : Net sh p ρ) (hσ : Net sh q σ) (hne : σ.mask ≠ ρ.mask) :
    goesFirst ρ σ = true ↔ ρ.b < σ.b := by
  unfold goesFirst
  rw [hρ.mask, hσ.mask]
  dsimp only
  rw [hρ.b, hσ.b]
  by_cases hlt : indexOf sh p < indexOf sh q
  · simp [hlt]
  · have hpq : p < q := by
      rw [indexOf_lt hρ.n0_le hσ.n0_le] at hlt
      have hpq' : p ≠ q := by
        rintro rfl
        exact hne (hσ.mask.trans hρ.mask.symm)
      omega
    rw [rnRefines_maskOf hρ.n0_le hpq hσ.le_nbits, rnLexobetter_maskOf hρ.n0_le hpq hσ.le_nbits]
    simp

theorem b_ne_of_mask {ρ σ : Route} (hρ : Net sh p ρ) (hσ : Net sh q σ) (hne : σ.mask ≠ ρ.mask) : σ.b ≠ ρ.b := by
  intro hb
  rw [hρ.b, hσ.b] at hb
  obtain rfl := indexOf_inj hσ.n0_le hρ.n0_le hb
  exact hne (hσ.mask.trans hρ.mask.symm)

theorem Before.trans {z : Leaf} (h : Before x y) (h' : Before y z) : Before x z :=
  ⟨h'.1, fun hx => lt_trans (h.2 hx) (h'.2 h.1)⟩

theorem Before.mask_ne (hx : RouteOk sh x.route) (hy : RouteOk sh y.route) (h : Before x y) :
    y.route.mask ≠ x.route.mask := by
  intro heq
  have hxm : x.route.mask.isSome := by rw [← heq]; exact h.1
  obtain ⟨p, hp⟩ := hx.net_of_mask hxm
  obtain ⟨q, hq⟩ := hy.net_of_mask h.1
  have hb := h.2 hxm
  rw [hp.b, hq.b, indexOf_lt hp.n0_le hq.n0_le] at hb
  rw [hp.mask, hq.mask, Option.some.injEq] at heq
  -- masks of different lengths are different copies
  unfold maskOf at heq
  have hlenp := byteAt_maskKey_len hp.le_nbits
  have h8 := sh.n0_pos
  have hq0 := hq.n0_le
  rw [if_neg (show ¬p = sh.n0 by omega)] at heq
  split at heq
  · rw [← heq, byteAt_rnZeros] at hlenp
    change 0 = (p + 7) / 8 at hlenp
    omega
  · have := maskKey_inj hp.le_nbits hq.le_nbits (by omega) (by omega) fun i _ => by rw [heq]
    omega

/-- A leaf that goes first may stand before, and one that does not may stand behind. -/
theorem before_of_goesFirst (hx : RouteOk sh x.route) (hy : RouteOk sh y.route) (hne : y.route.mask ≠ x.route.mask) :
    if goesFirst x.route y.route then Before x y else Before y x := by
  cases hmx : x.route.mask with
  | none =>
    rw [if_pos (by simp [goesFirst, hmx])]
    refine ⟨?_, by simp [hmx]⟩
    rw [hmx] at hne
    exact Option.isSome_iff_ne_none.2 hne
  | some m =>
    obtain ⟨p, hp⟩ := hx.net_of_mask (by simp [hmx])
    cases hmy : y.route.mask with
    | none =>
      rw [if_neg (by simp [goesFirst, hmx, hmy])]
      exact ⟨by simp [hmx], by simp [hmy]⟩
    | some n =>
      obtain ⟨q, hq⟩ := hy.net_of_mask (by simp [hmy])
      split
      · next h => exact ⟨by simp [hmy], fun _ => (goesFirst_net hp hq hne).1 h⟩
      · next h =>
        rw [goesFirst_net hp hq hne] at h
        have hbne := b_ne_of_mask hp hq hne
        exact ⟨by simp [hmx], fun _ => by omega⟩

theorem joinChain_spec {tt : Leaf} {ch ch' : List Leaf} (hord : ch.Pairwise Before)
    (hr : ∀ x ∈ ch, RouteOk sh x.route) (htt : RouteOk sh tt.route) (h : joinChain tt ch = some ch') :
    ch'.Perm (tt :: ch) ∧ ch'.Pairwise Before ∧ ∀ x ∈ ch, x.route.mask ≠ tt.route.mask := by
  induction ch generalizing ch' with
  | nil =>
    rw [joinChain, Option.some.injEq] at h
    subst h
    simp
  | cons t ts ih =>
    obtain ⟨ht, hts⟩ := List.pairwise_cons.1 hord
    have hrt := hr t List.mem_cons_self
    rw [joinChain] at h
    split at h
    · cases h
    next hne =>
    have hbf := before_of_goesFirst htt hrt hne
    split at h
    · next hg =>
      rw [Option.some.injEq] at h
      subst h
      rw [if_pos hg] at hbf
      have hall : ∀ x ∈ t :: ts, Before tt x := by
        intro x hx
        rcases List.mem_cons.1 hx with rfl | hx
        · exact hbf
        · exact hbf.trans (ht x hx)
      exact ⟨List.Perm.refl _, List.pairwise_cons.2 ⟨hall, hord⟩, fun x hx => (hall x hx).mask_ne htt (hr x hx)⟩
    · next hg =>
      rw [if_neg hg] at hbf
      obtain ⟨ch1, hch1, rfl⟩ := Option.map_eq_some_iff.1 h
      obtain ⟨hperm, hord1, hmask⟩ := ih hts (fun x hx => hr x (List.mem_cons_of_mem t hx)) hch1
      refine ⟨(hperm.cons t).trans (List.Perm.swap _ _ _), List.pairwise_cons.2 ⟨?_, hord1⟩, ?_⟩
      · intro x hx
        rcases List.mem_cons.1 (hperm.mem_iff.1 hx) with rfl | hx
        · exact hbf
        · exact ht x hx
      · intro x hx
        rcases List.mem_cons.1 hx with rfl | hx
        · exact hne
        · exact hmask x hx

/-! ## Promotion -/

theorem takeWhile_sorted {k : Int} (hs : mk.Pairwise fun m m' => m.b < m'.b) :
    (mk.takeWhile fun m => m.b < k) = mk.filter fun m => m.b < k := by
  induction mk with
  | nil => rfl
  | cons m ms ih =>
    obtain ⟨hm, hms⟩ := List.pairwise_cons.1 hs
    by_cases h : m.b < k
    · simp [h, ih hms]
    · have hnone : ms.filter (fun m => m.b < k) = [] := by
        rw [List.filter_eq_nil_iff]
        intro m' hm'
        have := hm m' hm'
        simp only [decide_eq_true_eq]
        omega
      simp [h, hnone]

theorem dropWhile_sorted {k : Int} (hs : mk.Pairwise fun m m' => m.b < m'.b) :
    (mk.dropWhile fun m => m.b < k) = mk.filter fun m => !decide (m.b < k) := by
  induction mk with
  | nil => rfl
  | cons m ms ih =>
    obtain ⟨hm, hms⟩ := List.pairwise_cons.1 hs
    by_cases h : m.b < k
    · simp [h, ih hms]
    · have hall : ms.filter (fun m => !decide (m.b < k)) = ms := by
        rw [List.filter_eq_self]
        intro m' hm'
        have := hm m' hm'
        simp only [Bool.not_eq_true', decide_eq_false_iff_not]
        omega
      simp [h, hall]

/-- The leaves a new node lists are those that belong there. -/
theorem promoted_iff (h0 : sh.n0 ≤ b) (hr : RouteOk sh x.route) (hm : MarkOk sh lo x) :
    promoted b x = true ↔ Listed sh lo b x.route := by
  unfold promoted
  rw [Bool.and_eq_true, Bool.and_eq_true, decide_eq_true_eq]
  constructor
  · rintro ⟨⟨hs, hb⟩, hn⟩
    obtain ⟨p, hp⟩ := hr.net_of_mask hs
    refine ⟨p, hp, ?_, ?_⟩
    · by_contra hlt
      rw [hm.net p hp, if_pos (by omega)] at hn
      cases hn
    · have := (indexOf_lt_bit (p := p) h0).not
      rw [← hp.b] at this
      omega
  · rintro ⟨p, hp, hlo, hpb⟩
    refine ⟨⟨by rw [hp.mask]; rfl, ?_⟩, ?_⟩
    · have := (indexOf_lt_bit (p := p) h0).not
      rw [← hp.b] at this
      omega
    · rw [hm.net p hp, if_neg (by omega)]
      rfl

/-- A list cut at bit `b`: what belongs below it stays, the rest belongs above. -/
theorem MkOk.cut {c : Nat} {A : List Route} (h : MkOk sh lo c mk A) (h0 : sh.n0 ≤ b) (hbc : b ≤ c) (hlo : lo ≤ b + 1) :
    MkOk sh (b + 1) c (mk.takeWhile fun m => m.b < -1 - (b : Int)) A ∧
      MkOk sh lo b (mk.dropWhile fun m => m.b < -1 - (b : Int)) A := by
  rw [takeWhile_sorted h.sorted, dropWhile_sorted h.sorted]
  refine ⟨⟨?_, h.sorted.filter _⟩, ⟨?_, h.sorted.filter _⟩⟩
  · intro m
    rw [List.mem_filter, h.mem, decide_eq_true_eq]
    constructor
    · rintro ⟨⟨ρ, hρ, ⟨p, hp, h1, h2⟩, rfl⟩, hlt⟩
      rw [b_rnNewRadixMask, hp.b, indexOf_lt_bit h0] at hlt
      exact ⟨ρ, hρ, ⟨p, hp, by omega, h2⟩, rfl⟩
    · rintro ⟨ρ, hρ, ⟨p, hp, h1, h2⟩, rfl⟩
      rw [b_rnNewRadixMask, hp.b, indexOf_lt_bit h0]
      exact ⟨⟨ρ, hρ, ⟨p, hp, by omega, h2⟩, rfl⟩, by omega⟩
  · intro m
    rw [List.mem_filter, h.mem, Bool.not_eq_true', decide_eq_false_iff_not]
    constructor
    · rintro ⟨⟨ρ, hρ, ⟨p, hp, h1, h2⟩, rfl⟩, hlt⟩
      rw [b_rnNewRadixMask, hp.b, indexOf_lt_bit h0] at hlt
      exact ⟨ρ, hρ, ⟨p, hp, h1, by omega⟩, rfl⟩
    · rintro ⟨ρ, hρ, ⟨p, hp, h1, h2⟩, rfl⟩
      rw [b_rnNewRadixMask, hp.b, indexOf_lt_bit h0]
      exact ⟨⟨ρ, hρ, ⟨p, hp, h1, by omega⟩, rfl⟩, by omega⟩

/-- The records of the leaves of a chain that belong on a list form that list. -/
theorem mkOk_chain {ch : List Leaf} {q : Leaf → Bool} (hord : ch.Pairwise Before)
    (hq : ∀ x ∈ ch, q x = true ↔ Listed sh lo b x.route) :
    MkOk sh lo b ((ch.filter q).map fun x => rnNewRadixMask x.route) (routes ch) := by
  constructor
  · intro m
    simp only [List.mem_map, List.mem_filter, mem_routes]
    constructor
    · rintro ⟨x, ⟨hx, hqx⟩, rfl⟩
      exact ⟨x.route, ⟨x, hx, rfl⟩, (hq x hx).1 hqx, rfl⟩
    · rintro ⟨_, ⟨x, hx, rfl⟩, hl, rfl⟩
      exact ⟨x, ⟨hx, (hq x hx).2 hl⟩, rfl⟩
  · rw [List.pairwise_map]
    have hmem : ∀ x ∈ ch.filter q, x.route.mask.isSome := by
      intro x hx
      obtain ⟨hx, hqx⟩ := List.mem_filter.1 hx
      obtain ⟨p, hp, -, -⟩ := (hq x hx).1 hqx
      rw [hp.mask]
      rfl
    refine (hord.filter q).imp_of_mem ?_
    intro x y hx _ hxy
    exact hxy.2 (hmem x hx)

theorem promote_spec {x : Tree} (h : Holds (NodeOk sh) (ChainOk sh) lo x) (h0 : sh.n0 ≤ b) (hlo : lo ≤ b)
    (hbelow : ∀ d c l r, x = .node d c l r → b < c) (hr : ∀ y ∈ x.members, RouteOk sh y.route) :
    Holds (NodeOk sh) (ChainOk sh) (b + 1) (promote b x).2 ∧ routes (promote b x).2.members = routes x.members ∧
      MkOk sh lo b (promote b x).1 (routes x.members) := by
  cases x with
  | leaf ch =>
    have hch : ChainOk sh lo ch := h
    have hiff : ∀ x ∈ ch, promoted b x = true ↔ Listed sh lo b x.route :=
      fun x hx => promoted_iff h0 (hr x hx) (hch.mark x hx)
    have hroute : ∀ x : Leaf, (if promoted b x then { x with mklist := some x.route.pair } else x).route = x.route := by
      intro x
      split <;> rfl
    refine ⟨⟨?_, ?_, ?_, ?_⟩, ?_, mkOk_chain hch.order hiff⟩
    · simpa using hch.ne
    · intro x hx y hy
      obtain ⟨x', hx', rfl⟩ := List.mem_map.1 hx
      obtain ⟨y', hy', rfl⟩ := List.mem_map.1 hy
      unfold leafBits
      rw [hroute, hroute]
      exact hch.agree x' hx' y' hy'
    · rw [List.pairwise_map]
      refine hch.order.imp ?_
      intro x y hxy
      unfold Before
      rw [hroute, hroute]
      exact hxy
    · intro y hy
      obtain ⟨x, hx, rfl⟩ := List.mem_map.1 hy
      have hmark := hch.mark x hx
      split
      · next hp =>
        obtain ⟨p, hp, hlop, hpb⟩ := (hiff x hx).1 hp
        refine ⟨?_, ?_⟩
        · intro hn
          rw [hp.mask] at hn
          cases hn
        · intro q hq
          obtain rfl := hp.unique hq
          rw [if_pos (by omega)]
      · next hp =>
        refine ⟨hmark.unmasked, ?_⟩
        intro p hnet
        rw [hmark.net p hnet]
        by_cases hplo : p < lo
        · rw [if_pos hplo, if_pos (by omega)]
        · rw [if_neg hplo, if_neg]
          intro hpb
          exact hp ((hiff x hx).2 ⟨p, hnet, by omega, by omega⟩)
    · rw [promote, members_leaf, members_leaf, routes, routes, List.map_map]
      exact List.map_congr_left fun x _ => hroute x
  | node d c l r =>
    obtain ⟨hloc, hnode, hl, hr'⟩ := h
    have hbc := hbelow d c l r rfl
    obtain ⟨hstay, hgo⟩ := hnode.list.cut h0 (by omega) (by omega)
    exact ⟨⟨hbc, ⟨hnode.n0_le, hnode.lt_nbits, hnode.divides, hstay⟩, hl, hr'⟩, rfl, hgo⟩

/-! ## The path above a new route -/

section Path
variable {ρ : Route} {cs : List Crumb} {A A' : List Leaf}

theorem ctx_n0 (h : CtxHolds (NodeOk sh) (ChainOk sh) cs A) : ∀ c ∈ cs, sh.n0 ≤ c.b := by
  intro c hc
  obtain ⟨_, _, -, -, -, -, hn⟩ := h.node hc
  exact hn.n0_le

/-- No list on the path has a record of the new route's length. -/
theorem ctx_enters (h : CtxHolds (NodeOk sh) (ChainOk sh) cs A) (hρ : RouteOk sh ρ)
    (hf : ∀ x, x ∈ A ∨ x ∈ outside cs → Fresh sh ρ x.route) {x0 : Leaf} (hx0 : x0 ∈ A)
    (hag : Agree sh.n0 (leafBits x0) (bitSet ρ.key) (floor cs)) (hm : ρ.mask.isSome) :
    ∀ c ∈ cs, ∃ mk, enterMask ρ c.d.mklist = some (mk, ρ.pair) := by
  intro c hc
  obtain ⟨p, hp⟩ := hρ.net_of_mask hm
  obtain ⟨lo, B, -, hlt, hin, hout, hn⟩ := h.node hc
  have hsub : ∀ x ∈ c.lefts B ++ c.rights B, x ∈ A ∨ x ∈ outside cs := by
    intro x hx
    rcases mem_sides.1 hx with hx | hx
    · exact hout x hx
    · exact .inr (List.mem_flatMap.2 ⟨c, hc, hx⟩)
  have hne := hn.list.ne hp (fun σ hσ => ?_) (fun σ hσ => ?_)
  · obtain ⟨mk, heq, -⟩ := enterMask_spec hn.list.sorted hne
    exact ⟨mk, heq⟩
  · obtain ⟨x, hx, rfl⟩ := mem_routes.1 hσ
    exact hf x (hsub x hx)
  · obtain ⟨x, hx, rfl⟩ := mem_routes.1 hσ
    have hx0' : x0 ∈ c.lefts B ++ c.rights B := mem_sides.2 (.inl (hin x0 hx0))
    exact (hn.divides.agree x hx x0 hx0').trans (hag.mono (by omega))

/-- The path above a new route, entered where it belongs, is right again. -/
theorem ctx_enter (h : CtxHolds (NodeOk sh) (ChainOk sh) cs A) (hρ : RouteOk sh ρ)
    (hf : ∀ x, x ∈ A ∨ x ∈ outside cs → Fresh sh ρ x.route) {x0 : Leaf} (hx0 : x0 ∈ A)
    (hag : Agree sh.n0 (leafBits x0) (bitSet ρ.key) (floor cs))
    (hA : ∀ σ, σ ∈ routes A' ↔ σ = ρ ∨ σ ∈ routes A) :
    CtxHolds (NodeOk sh) (ChainOk sh) (mapPath (enterAt sh ρ) cs) A' := by
  let Rel : List Leaf → List Leaf → Prop := fun A A' =>
    (∃ x0 ∈ A, Agree sh.n0 (leafBits x0) (bitSet ρ.key) (floor cs)) ∧ ∀ σ, σ ∈ routes A' ↔ σ = ρ ∨ σ ∈ routes A
  have hsides : ∀ (A A' : List Leaf) (c : Crumb), Rel A A' → ∀ σ,
      σ ∈ routes (c.lefts A' ++ c.rights A') ↔ σ = ρ ∨ σ ∈ routes (c.lefts A ++ c.rights A) := by
    intro A A' c hr σ
    have hmem : ∀ B, σ ∈ routes (c.lefts B ++ c.rights B) ↔ σ ∈ routes B ∨ σ ∈ routes c.sib.members := by
      intro B
      simp only [mem_routes, mem_sides, or_and_right, exists_or]
    rw [hmem, hmem, hr.2, or_assoc]
  refine CtxHolds.update (E := Rel) (G := fun x => Fresh sh ρ x.route) (K := fun _ => True) ?_ ?_
    (Nat.le_refl (floor cs)) (fun _ _ => trivial) ?_ h ⟨⟨x0, hx0, hag⟩, hA⟩
  · intro A A' c _ hr
    obtain ⟨x, hx, hxag⟩ := hr.1
    exact ⟨⟨x, mem_sides.2 (.inl hx), hxag⟩, hsides A A' c hr⟩
  · intro lo d A A' c _ hc hfresh hn hr
    obtain ⟨x, hx, hxag⟩ := hr.1
    have hroute := hsides A A' c hr
    refine ⟨hn.n0_le, hn.lt_nbits, hn.divides.replace hn.n0_le ?_, ?_⟩
    · intro x' hx'
      rcases (hr.2 x'.route).1 (mem_routes.2 ⟨x', hx', rfl⟩) with he | he
      · refine ⟨x, hx, ?_⟩
        unfold leafBits at hxag ⊢
        rw [he]
        exact (hxag.mono (by omega)).symm
      · obtain ⟨y, hy, hyx⟩ := mem_routes.1 he
        refine ⟨y, hy, ?_⟩
        unfold leafBits
        rw [hyx]
        exact fun _ _ _ => rfl
    · refine (hn.list.enterAt d.slot hρ ?_ ?_).congr ?_
      · intro σ hσ
        obtain ⟨y, hy, rfl⟩ := mem_routes.1 hσ
        exact hfresh y hy
      · intro σ hσ
        obtain ⟨y, hy, rfl⟩ := mem_routes.1 hσ
        exact (hn.divides.agree y hy x (mem_sides.2 (.inl hx))).trans (hxag.mono (by omega))
      · intro σ
        rw [hroute, List.mem_cons]
  · intro x hx
    exact hf x (List.mem_append.1 hx)

end Path

end BsdKernel.Radix
