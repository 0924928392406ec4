import BsdKernel.Net.RadixInsert
/-!
# Looking a key up

`rn_match` on a tree that is right. The search ends in the chain that shares the
longest prefix with the key; a leaf of it that applies is longer than any route
elsewhere that does (`chain_wins`). If none does, the lists met on the way up
hold the remaining candidates by falling length (`searchUp_spec`). The one
exception is the key of all ones, where the search meets the root leaf of ones
and takes it for a match (`rnMatch_ones`).
-/

namespace BsdKernel.Radix
open Lib PTree

variable {sh : Shape}
variable {p : Nat} {ρ : Route} {x : Leaf}

/-- How specific a route is: the length of its mask, and a host route beyond all masks. -/
def Route.len (sh : Shape) (ρ : Route) : Nat := if ρ.mask.isSome then ρ.plen sh else sh.nbits + 1

/-- The route applies to the key `v`. -/
def Applies (sh : Shape) (v : Key) (ρ : Route) : Prop :=
  ρ.root = false ∧ Agree sh.n0 (bitSet ρ.key) (bitSet v) (min (ρ.len sh) sh.nbits)

theorem Net.len_eq (h : Net sh p ρ) : ρ.len sh = p := by
  rw [Route.len, h.mask, if_pos (by rfl), h.plen_eq]

theorem Net.applies {v : Key} (h : Net sh p ρ) : Applies sh v ρ ↔ Agree sh.n0 (bitSet ρ.key) (bitSet v) p := by
  unfold Applies
  rw [h.len_eq, Nat.min_eq_left h.le_nbits, h.root]
  simp

theorem applies_host {v : Key} (hm : ρ.mask = none) (h : Applies sh v ρ) :
    Agree sh.n0 (bitSet ρ.key) (bitSet v) sh.nbits := by
  have := h.2
  rw [Route.len, hm, if_neg (by simp), Nat.min_eq_right (by omega)] at this
  exact this

theorem RouteOk.cases (h : RouteOk sh ρ) (hr : ρ.root = false) : ρ.mask = none ∨ ∃ p, Net sh p ρ := by
  rcases h with h | ⟨-, h⟩ | ⟨p, hp⟩
  · rcases h with rfl | rfl <;> cases hr
  · exact .inl h
  · exact .inr ⟨p, hp⟩

theorem Before.len_lt {y : Leaf} (hx : RouteOk sh x.route) (hy : RouteOk sh y.route) (h : Before x y) :
    y.route.len sh < x.route.len sh := by
  obtain ⟨q, hq⟩ := hy.net_of_mask h.1
  rw [hq.len_eq]
  by_cases hm : x.route.mask.isSome
  · obtain ⟨p, hp⟩ := hx.net_of_mask hm
    have hb := h.2 hm
    rw [hp.b, hq.b, indexOf_lt hp.n0_le hq.n0_le] at hb
    rwa [hp.len_eq]
  · have := hq.le_nbits
    rw [Route.len, if_neg hm]
    omega

/-- The leaf at `p` is of the most specific route that applies. -/
def Best (sh : Shape) (v : Key) (t : Tree) (p : Pair) : Prop :=
  ∃ x ∈ t.members, x.route.pair = p ∧ Applies sh v x.route ∧
    ∀ y ∈ t.members, Applies sh v y.route → y.route.len sh ≤ x.route.len sh

section Chain
variable {t : Tree} {v : Key} {cs : List Crumb} {ch : List Leaf}

/-- A route that applies and is more specific than one of the chain that does is in the chain. -/
theorem chain_wins (h : TreeOk sh t) (hs : rnSearch v t = (cs, ch)) {f y : Leaf} (hf : f ∈ ch) (hp : Net sh p f.route)
    (hy : y ∈ t.members) (hya : Applies sh v y.route) (hlt : p < y.route.len sh) : y ∈ ch := by
  rcases (h.route y hy).cases hya.1 with hm | ⟨q, hq⟩
  · exact h.in_chain hs hy (applies_host hm hya)
  · rw [hq.applies] at hya
    rw [hq.len_eq] at hlt
    have hfv := h.best hs hf hy hq.le_nbits hya
    -- before the end of the longer mask both keys are the key's, behind it both are zero
    have hag : Agree sh.n0 (leafBits y) (leafBits f) sh.nbits := by
      intro j h0 hj
      by_cases hjq : j < q
      · exact (hya j h0 hjq).trans (hfv j h0 hjq).symm
      · unfold leafBits
        rw [hq.zero j (by omega) hj, hp.zero j (by omega) hj]
    have hmem := mem_bucket (P := NodeOk sh) (Q := ChainOk sh) (k := bitSet v) (fun _ _ _ _ _ hn => nodeOk_divides hn)
      h.holds [] hy (x := f) (by change f ∈ (rnSearch v t).2; rw [hs]; exact hf) hag
    change y ∈ (rnSearch v t).2 at hmem
    rwa [hs] at hmem

/-- The first leaf of a chain that applies is the best. -/
theorem best_of_first (h : TreeOk sh t) (hs : rnSearch v t = (cs, ch)) (hord : ch.Pairwise Before)
    (hin : ∀ x ∈ ch, x ∈ t.members) (pre post : List Leaf) {f : Leaf} (hsplit : ch = pre ++ f :: post)
    (hpre : ∀ x ∈ pre, ¬Applies sh v x.route) (hf : Applies sh v f.route) : Best sh v t f.route.pair := by
  have hfc : f ∈ ch := by rw [hsplit]; simp
  refine ⟨f, hin f hfc, rfl, hf, ?_⟩
  intro y hy hya
  by_contra hlt
  have hych : y ∈ ch := by
    rcases (h.route f (hin f hfc)).cases hf.1 with hm | ⟨p, hp⟩
    · -- nothing is more specific than a host route
      rw [Route.len, Route.len, hm, if_neg (show ¬(none : Option Key).isSome = true by simp)] at hlt
      split at hlt
      · next hmy =>
        obtain ⟨q, hq⟩ := (h.route y hy).net_of_mask hmy
        have := hq.le_nbits
        rw [hq.plen_eq] at hlt
        omega
      · omega
    · rw [hp.len_eq] at hlt
      exact chain_wins h hs hfc hp hy hya (by omega)
  rw [hsplit] at hych hord
  rcases List.mem_append.1 hych with hyp | hyp
  · exact hpre y hyp hya
  · rcases List.mem_cons.1 hyp with rfl | hyp
    · omega
    · have hbf := (List.pairwise_cons.1 (List.pairwise_append.1 hord).2.1).1 y hyp
      have := hbf.len_lt (h.route f (hin f hfc)) (h.route y hy)
      omega

end Chain

/-! ## The way up -/

section Up
variable {v : Key} {m : Nat} {D : Nat}

theorem rnSatsifiesLeaf_default (h : ρ.mask = some (rnZeros sh)) (skip : Nat) : rnSatsifiesLeaf v ρ skip = true := by
  unfold rnSatsifiesLeaf
  rw [h]
  dsimp only
  rw [byteAt_rnZeros]
  simp

/-- A record on a list above finds its route exactly when the route applies. -/
theorem maskHit_eq {lo : Nat} {t : Tree} (h : Holds (NodeOk sh) (ChainOk sh) lo t)
    (hr : ∀ x ∈ t.members, RouteOk sh x.route) (hx : x ∈ t.members) (hp : Net sh p x.route)
    (hD : Agree sh.n0 (bitSet x.route.key) (bitSet v) p ↔ p ≤ D) :
    (Applies sh v x.route → maskHit v (-1 - (D : Int)) m t (rnNewRadixMask x.route) = some x.route.pair) ∧
      (¬Applies sh v x.route → maskHit v (-1 - (D : Int)) m t (rnNewRadixMask x.route) = none) := by
  rw [hp.applies]
  by_cases hn0 : p = sh.n0
  · -- the default route: the search under its mask ends in its chain
    subst hn0
    have hmask : x.route.mask = some (rnZeros sh) := by rw [hp.mask, maskOf, if_pos rfl]
    have htriv : Agree sh.n0 (bitSet x.route.key) (bitSet v) sh.n0 := fun j h0 hj => absurd hj (by omega)
    refine ⟨fun _ => ?_, fun hna => absurd htriv hna⟩
    have hnormal : x.route.normal = false := by rw [hp.normal]; simp
    have hfind : (rnSearchM v t (rnZeros sh)).find? (fun y => y.route.mask = some (rnZeros sh)) = some x := by
      have hk : (fun b => bitSet (rnZeros sh) b && bitSet v b) = fun _ => false := by
        funext b
        rw [bitSet_rnZeros, Bool.false_and]
      have hmem : x ∈ (descend (fun _ => false) t []).2 := by
        refine mem_descend (P := NodeOk sh) (Q := ChainOk sh) (fun _ _ _ _ _ hn => nodeOk_divides hn) h _ hx ?_
        exact fun j h0 hj => hp.zero j h0 hj
      obtain ⟨lo', hch⟩ := holds_bucket (k := fun _ => false) h []
      have hsub := descend_subset (fun _ => false) t []
      unfold rnSearchM
      rw [hk]
      generalize (descend (fun _ => false) t []).2 = ch at hmem hch hsub
      obtain ⟨pre, post, hsplit⟩ := List.append_of_mem hmem
      have hord := hch.order
      rw [hsplit] at hord ⊢
      rw [List.find?_append, List.find?_eq_none.2, Option.none_or, List.find?_cons_of_pos (by simpa using hmask)]
      intro y hy
      have hbf := (List.pairwise_append.1 hord).2.2 y hy x List.mem_cons_self
      have hne := hbf.mask_ne (hr y (hsub y (by rw [hsplit]; simp [hy]))) (hr x hx)
      rw [hmask] at hne
      simpa using fun he => hne he.symm
    unfold maskHit rnNewRadixMask
    rw [hnormal, hmask]
    dsimp only [Bool.false_eq_true, if_false, Option.getD_some]
    rw [if_neg (by simp)]
    dsimp only
    rw [Option.getD_some, hfind]
    dsimp only
    rw [rnSatsifiesLeaf_default hmask, if_pos rfl]
  · have hnormal : x.route.normal = true := by rw [hp.normal]; simpa using hn0
    have hhit : maskHit v (-1 - (D : Int)) m t (rnNewRadixMask x.route) =
        if p ≤ D then some x.route.pair else none := by
      unfold maskHit rnNewRadixMask
      rw [hnormal, if_pos rfl]
      dsimp only
      rw [hp.b, indexOf, if_neg hn0]
      congr 1
      apply propext
      omega
    rw [hhit, hD]
    exact ⟨fun hle => if_pos hle, fun hle => if_neg hle⟩

/-- The search up the tree finds the longest route on the lists above that applies. -/
theorem searchUp_spec {cs : List Crumb} {t : Tree} (x0 : Leaf) (h : Holds (NodeOk sh) (ChainOk sh) (floor cs) t)
    (hctx : CtxHolds (NodeOk sh) (ChainOk sh) cs t.members) (hr : ∀ x, x ∈ t.members ∨ x ∈ outside cs → RouteOk sh x.route)
    (hx0 : x0 ∈ t.members) (hD : ∀ q, q ≤ sh.nbits → (Agree sh.n0 (leafBits x0) (bitSet v) q ↔ q ≤ D))
    (hsib : ∀ c ∈ cs, ∀ y ∈ c.sib.members, ∀ q, Net sh q y.route → Applies sh v y.route → q ≤ c.b) :
    (∃ x p, (x ∈ t.members ∨ x ∈ outside cs) ∧ Net sh p x.route ∧ Applies sh v x.route ∧
      searchUp v (-1 - (D : Int)) m cs t = some x.route.pair ∧
      ∀ y q, y ∈ t.members ∨ y ∈ outside cs → Net sh q y.route → Applies sh v y.route → q < floor cs → q ≤ p) ∨
    (searchUp v (-1 - (D : Int)) m cs t = none ∧
      ∀ y q, y ∈ t.members ∨ y ∈ outside cs → Net sh q y.route → Applies sh v y.route → ¬q < floor cs) := by
  induction cs generalizing t with
  | nil => exact .inr ⟨rfl, fun y q _ _ _ hq => absurd hq (Nat.not_lt_zero q)⟩
  | cons c cs ih =>
    obtain ⟨hlo, hn, hsibok, hrest⟩ := hctx
    have hfill : Holds (NodeOk sh) (ChainOk sh) (floor cs) (c.fill t) := holds_fill.2 ⟨hlo, hn, hsibok, h⟩
    have hmem : ∀ x, x ∈ (c.fill t).members ↔ x ∈ t.members ∨ x ∈ c.sib.members := by
      intro x
      rw [members_fill, mem_sides]
    have hall : ∀ x, (x ∈ (c.fill t).members ∨ x ∈ outside cs) ↔ (x ∈ t.members ∨ x ∈ outside (c :: cs)) := by
      intro x
      rw [hmem, outside_cons, List.mem_append, or_assoc]
    have hr' : ∀ x, x ∈ (c.fill t).members ∨ x ∈ outside cs → RouteOk sh x.route := fun x hx => hr x ((hall x).1 hx)
    have hx0' : x0 ∈ (c.fill t).members := (hmem x0).2 (.inl hx0)
    -- below the node every route that its list can hold applies or not by its length
    have hlen : ∀ x ∈ (c.fill t).members, ∀ p, Net sh p x.route → p ≤ c.b →
        (Agree sh.n0 (bitSet x.route.key) (bitSet v) p ↔ p ≤ D) := by
      intro x hx p hp hpb
      rw [← hD p hp.le_nbits]
      rw [members_fill] at hx hx0'
      have hag := (hn.divides.agree x hx x0 hx0').mono hpb
      exact ⟨fun ha => hag.symm.trans ha, fun ha => hag.trans ha⟩
    have hrec : ∀ r ∈ c.d.mklist, ∃ x ∈ (c.fill t).members, ∃ p, Net sh p x.route ∧ floor cs ≤ p ∧ p ≤ c.b ∧
        r = rnNewRadixMask x.route := by
      intro r hr
      obtain ⟨ρ, hρ, ⟨p, hp, h1, h2⟩, rfl⟩ := (hn.list.mem r).1 hr
      obtain ⟨x, hx, rfl⟩ := mem_routes.1 hρ
      exact ⟨x, by rw [members_fill]; exact hx, p, hp, h1, h2, rfl⟩
    have hhit := fun x hx p hp (hpb : p ≤ c.b) => maskHit_eq (m := m) hfill (fun y hy => hr' y (.inl hy)) (x := x) hx
      (p := p) hp (hlen x hx p hp hpb)
    -- a route further up that applies is shorter
    have hup : ∀ y q, y ∈ outside cs → Net sh q y.route → Applies sh v y.route → q < floor cs := by
      intro y q hy hq hya
      obtain ⟨c', hc', hyc'⟩ := List.mem_flatMap.1 hy
      have hle := hsib c' (List.mem_cons_of_mem c hc') y hyc' q hq hya
      have hlt := hrest.rising.lt_floor c' hc'
      omega
    rw [searchUp]
    cases hf : c.d.mklist.findSome? (maskHit v (-1 - (D : Int)) m (c.fill t)) with
    | some pr =>
      obtain ⟨pre, r, post, hsplit, hr1, hpre⟩ := List.findSome?_eq_some_iff.1 hf
      obtain ⟨x, hx, p, hp, h1, h2, rfl⟩ := hrec r (by rw [hsplit]; simp)
      have hxa : Applies sh v x.route := by
        by_contra hna
        rw [(hhit x hx p hp h2).2 hna] at hr1
        cases hr1
      rw [(hhit x hx p hp h2).1 hxa, Option.some.injEq] at hr1
      subst hr1
      refine .inl ⟨x, p, (hall x).1 (.inl hx), hp, hxa, rfl, ?_⟩
      intro y q hy hq hya hqf
      by_contra hlt
      rw [floor_cons] at hqf
      have hyf : y ∈ (c.fill t).members := by
        rcases (hall y).2 hy with hy | hy
        · exact hy
        · have := hup y q hy hq hya
          omega
      have hin : rnNewRadixMask y.route ∈ c.d.mklist := by
        refine (hn.list.mem _).2 ⟨y.route, ?_, ⟨q, hq, by omega, by omega⟩, rfl⟩
        rw [members_fill] at hyf
        exact mem_routes.2 ⟨y, hyf, rfl⟩
      have hsorted := hn.list.sorted
      rw [hsplit] at hin hsorted
      rcases List.mem_append.1 hin with hin | hin
      · have := hpre _ hin
        rw [(hhit y hyf q hq (by omega)).1 hya] at this
        cases this
      · rcases List.mem_cons.1 hin with he | hin
        · have hb := congrArg RadixMask.b he
          rw [b_rnNewRadixMask, b_rnNewRadixMask, hq.b, hp.b] at hb
          have := indexOf_inj hq.n0_le hp.n0_le hb
          omega
        · have hb := (List.pairwise_cons.1 (List.pairwise_append.1 hsorted).2.1).1 _ hin
          rw [b_rnNewRadixMask, b_rnNewRadixMask, hq.b, hp.b, indexOf_lt hp.n0_le hq.n0_le] at hb
          omega
    | none =>
      dsimp only
      have hnone := List.findSome?_eq_none_iff.1 hf
      have hskip : ∀ y q, y ∈ (c.fill t).members → Net sh q y.route → Applies sh v y.route → floor cs ≤ q → ¬q ≤ c.b := by
        intro y q hy hq hya h1 h2
        have hin : rnNewRadixMask y.route ∈ c.d.mklist := by
          refine (hn.list.mem _).2 ⟨y.route, ?_, ⟨q, hq, h1, h2⟩, rfl⟩
          rw [members_fill] at hy
          exact mem_routes.2 ⟨y, hy, rfl⟩
        have := hnone _ hin
        rw [(hhit y hy q hq h2).1 hya] at this
        cases this
      have hlow : ∀ y q, y ∈ t.members ∨ y ∈ outside (c :: cs) → Net sh q y.route → Applies sh v y.route →
          q < floor (c :: cs) → q < floor cs := by
        intro y q hy hq hya hqf
        rw [floor_cons] at hqf
        rcases (hall y).2 hy with hy | hy
        · by_contra hge
          exact hskip y q hy hq hya (by omega) (by omega)
        · exact hup y q hy hq hya
      rw [← members_fill] at hrest
      rcases ih hfill hrest hr' hx0' (fun c' hc' => hsib c' (List.mem_cons_of_mem c hc')) with
        ⟨x, p, hx, hp, hxa, heq, hmax⟩ | ⟨heq, hno⟩
      · refine .inl ⟨x, p, (hall x).1 hx, hp, hxa, heq, ?_⟩
        intro y q hy hq hya hqf
        exact hmax y q ((hall y).2 hy) hq hya (hlow y q hy hq hya hqf)
      · refine .inr ⟨heq, ?_⟩
        intro y q hy hq hya hqf
        exact hno y q ((hall y).2 hy) hq hya (hlow y q hy hq hya hqf)

end Up

/-! ## `rn_match` -/

section Match
variable {t : Tree} {v : Key}

theorem chainHit_iff {D m : Nat} (hp : Net sh p ρ) (hD : Agree sh.n0 (bitSet ρ.key) (bitSet v) p ↔ p ≤ D) :
    chainHit v (-1 - (D : Int)) m ρ = true ↔ Applies sh v ρ := by
  rw [hp.applies]
  unfold chainHit
  by_cases hn0 : p = sh.n0
  · subst hn0
    rw [if_neg (by rw [hp.normal]; simp), rnSatsifiesLeaf_default (by rw [hp.mask, maskOf, if_pos rfl])]
    simp only [true_iff]
    exact fun j h0 hj => absurd hj (by omega)
  · rw [if_pos (by rw [hp.normal]; simpa using hn0), hD, hp.b, indexOf, if_neg hn0, decide_eq_true_eq]
    omega

theorem matchLen_none (hm : ρ.mask = none) (hv : KeyLen sh v) : matchLen v ρ = sh.vlen := by
  rw [matchLen, hm]
  exact hv

theorem matchLen_net (hp : Net sh p ρ) : matchLen v ρ = if p = sh.n0 then 0 else (p + 7) / 8 := by
  rw [matchLen, hp.mask, maskOf]
  dsimp only
  split
  · rw [byteAt_rnZeros]
    rfl
  · exact byteAt_maskKey_len hp.le_nbits

/-- The comparison covers the mask of the leaf, and all of the key without one. -/
theorem agree_of_limit (hr : RouteOk sh x.route) (hv : KeyLen sh v)
    (hd : diffByte v x.route.key sh.off (matchLen v x.route - sh.off) = none) :
    Agree sh.n0 (leafBits x) (bitSet v) (min (x.route.len sh) sh.nbits) := by
  have hag : Agree sh.n0 (bitSet v) (leafBits x) (8 * matchLen v x.route) := by
    refine agree_of_bytes fun j hj hjn => diffByte_none.1 hd j hj ?_
    omega
  cases hm : x.route.mask with
  | none =>
    rw [matchLen_none hm hv] at hag
    exact hag.symm.mono (Nat.min_le_right _ _)
  | some m =>
    obtain ⟨p, hp⟩ := hr.net_of_mask (by simp [hm])
    rw [hp.len_eq, Nat.min_eq_left hp.le_nbits]
    rw [matchLen_net hp] at hag
    split at hag
    · -- the default route covers no bit
      intro j h0 hj
      omega
    · exact hag.symm.mono (by omega)

theorem matchLen_le (hr : RouteOk sh ρ) (hv : KeyLen sh v) : matchLen v ρ ≤ sh.vlen := by
  cases hm : ρ.mask with
  | none => exact Nat.le_of_eq (matchLen_none hm hv)
  | some k =>
    obtain ⟨p, hp⟩ := hr.net_of_mask (by simp [hm])
    have hpn := hp.le_nbits
    unfold Shape.nbits at hpn
    rw [matchLen_net hp]
    split <;> omega

/-- The search meets a root leaf and the key is its key. -/
theorem rnMatch_root (h : TreeOk sh t) {cs : List Crumb} {xs : List Leaf} (hs : rnSearch v t = (cs, x :: xs))
    (hch : (x :: xs).Pairwise Before) (hin : ∀ y ∈ x :: xs, y ∈ t.members) (hroot : x.route.root = true)
    (hkeys : ∀ y ∈ x :: xs, Agree sh.n0 (leafBits y) (bitSet v) sh.nbits) :
    match xs with
    | d :: _ => Best sh v t d.route.pair
    | [] => (∀ y ∈ t.members, y.route.root = false → ¬Agree sh.n0 (leafBits y) (bitSet v) sh.nbits) ∧
        (x.route = zerosLeaf sh sh.n0 → ∀ y ∈ t.members, ¬Applies sh v y.route) := by
  cases xs with
  | cons d ds =>
    have hdm := ((List.pairwise_cons.1 hch).1 d List.mem_cons_self).1
    obtain ⟨p, hp⟩ := (h.route d (hin d (by simp))).net_of_mask hdm
    refine best_of_first h hs hch hin [x] ds rfl ?_ ?_
    · intro y hy
      rw [List.mem_singleton.1 hy]
      intro hya
      rw [hya.1] at hroot
      cases hroot
    · rw [hp.applies]
      exact (hkeys d (by simp)).mono hp.le_nbits
  | nil =>
    have hnone : ∀ y ∈ t.members, y.route.root = false → ¬Agree sh.n0 (leafBits y) (bitSet v) sh.nbits := by
      intro y hy hyr hag
      rw [List.mem_singleton.1 (h.in_chain hs hy hag), hroot] at hyr
      cases hyr
    refine ⟨hnone, ?_⟩
    intro hxz y hy hya
    refine hnone y hy hya.1 ?_
    rcases (h.route y hy).cases hya.1 with hm | ⟨q, hq⟩
    · exact applies_host hm hya
    · -- a route that applies to the key of zeros has that key
      intro j h0 hj
      by_cases hjq : j < q
      · exact (hq.applies.1 hya) j h0 hjq
      · have hv0 := hkeys x List.mem_cons_self j h0 hj
        unfold leafBits at hv0 ⊢
        rw [hq.zero j (by omega) hj, ← hv0, hxz, zerosLeaf, bitSet_rnZeros]

theorem rnMatch_spec (h : TreeOk sh t) (hv : KeyLen sh v) :
    (∃ p, rnMatch v t = some p ∧ Best sh v t p) ∨
    ((∀ y ∈ t.members, ¬Applies sh v y.route) ∧ (rnMatch v t = none ∨ rnMatch v t = some .zeros)) ∨
    (Agree sh.n0 (bitSet (rnOnes sh)) (bitSet v) sh.nbits ∧
      (∀ y ∈ t.members, y.route.root = false → ¬Agree sh.n0 (leafBits y) (bitSet v) sh.nbits) ∧
      rnMatch v t = some .ones) := by
  obtain ⟨cs, x, xs, hs, hplug, hch, hctx⟩ := h.found v
  have hin : ∀ y, y ∈ x :: xs ∨ y ∈ outside cs → y ∈ t.members := by
    intro y hy
    rw [hplug]
    exact mem_plug.2 hy
  have hx := h.route x (hin x (.inl List.mem_cons_self))
  have hxs : ∀ y ∈ xs, y.route.mask.isSome := fun y hy => ((List.pairwise_cons.1 hch.order).1 y hy).1
  have hbest := fun pre post {f} => best_of_first h hs hch.order (fun y hy => hin y (.inl hy)) pre post (f := f)
  unfold rnMatch
  rw [hs, h.headOff]
  dsimp only
  cases hd : diffByte v x.route.key sh.off (matchLen v x.route - sh.off) with
  | none =>
    have hag := agree_of_limit hx hv hd
    cases hroot : x.route.root with
    | false =>
      refine .inl ⟨x.route.pair, ?_, hbest [] xs rfl (by simp) ⟨hroot, hag⟩⟩
      cases xs <;> simp
    | true =>
      have hmask : x.route.mask = none ∧ (x.route = zerosLeaf sh sh.n0 ∨ x.route = onesLeaf sh sh.n0) := by
        rcases hx with hs | ⟨hf, -⟩ | ⟨p, hp⟩
        · refine ⟨?_, hs⟩
          rcases hs with hs | hs <;> rw [hs] <;> rfl
        · rw [hf] at hroot
          cases hroot
        · rw [hp.root] at hroot
          cases hroot
      rw [Route.len, hmask.1, if_neg (by simp), Nat.min_eq_right (by omega)] at hag
      have hkeys : ∀ y ∈ x :: xs, Agree sh.n0 (leafBits y) (bitSet v) sh.nbits :=
        fun y hy => (hch.agree y hy x List.mem_cons_self).trans hag
      have hspec := rnMatch_root h hs hch.order (fun y hy => hin y (.inl hy)) hroot hkeys
      cases xs with
      | cons d ds => exact .inl ⟨d.route.pair, by simp, hspec⟩
      | nil =>
        rcases hmask.2 with hz | ho
        · exact .inr (.inl ⟨hspec.2 hz, .inr (by simp [hz, zerosLeaf])⟩)
        · refine .inr (.inr ⟨?_, hspec.1, by simp [ho, onesLeaf]⟩)
          unfold leafBits at hag
          rwa [ho] at hag
  | some m =>
    obtain ⟨hag, hdiff, hlow, hhigh⟩ := diffByte_lead hd
    dsimp only
    generalize leadBit 7 (byteAt v m ^^^ byteAt x.route.key m) + m * 8 = D at hag hdiff hlow hhigh
    have hDN : D < sh.nbits := by
      have h1 := matchLen_le hx hv
      unfold Shape.nbits
      omega
    -- every leaf of the chain shares exactly the bits before `D` with the key
    have hD : ∀ y ∈ x :: xs, ∀ q, q ≤ sh.nbits → (Agree sh.n0 (leafBits y) (bitSet v) q ↔ q ≤ D) := by
      intro y hy q hq
      have hyx := hch.agree y hy x List.mem_cons_self
      constructor
      · intro ha
        by_contra hlt
        exact hdiff ((ha D hlow (by omega)).symm.trans (hyx D hlow hDN))
      · intro hqD
        exact (hyx.mono hq).trans (hag.symm.mono hqD)
    have hnohost : ∀ y ∈ t.members, Applies sh v y.route → ∃ q, Net sh q y.route := by
      intro y hy hya
      rcases (h.route y hy).cases hya.1 with hm | hq
      · have hall := h.best hs List.mem_cons_self hy (Nat.le_refl _) (applies_host hm hya)
        rw [hD x List.mem_cons_self _ (Nat.le_refl _)] at hall
        omega
      · exact hq
    generalize hscan : (if x.route.mask = none then xs else x :: xs) = scan
    have hscan' : ∃ pre, x :: xs = pre ++ scan ∧ ∀ y ∈ pre, ¬Applies sh v y.route := by
      rw [← hscan]
      split
      · next hm =>
        refine ⟨[x], rfl, ?_⟩
        intro y hy hya
        rw [List.mem_singleton.1 hy] at hya
        obtain ⟨q, hq⟩ := hnohost x (hin x (.inl List.mem_cons_self)) hya
        rw [hq.mask] at hm
        cases hm
      · exact ⟨[], rfl, by simp⟩
    obtain ⟨pre, hpre, hprena⟩ := hscan'
    have hhit : ∀ y ∈ scan, (chainHit v (-1 - (D : Int)) m y.route = true ↔ Applies sh v y.route) := by
      intro y hy
      have hych : y ∈ x :: xs := by rw [hpre]; exact List.mem_append_right _ hy
      have hym : y.route.mask.isSome := by
        rw [← hscan] at hy
        split at hy
        · exact hxs y hy
        · next hm =>
          rcases List.mem_cons.1 hy with rfl | hy
          · exact Option.isSome_iff_ne_none.2 hm
          · exact hxs y hy
      obtain ⟨p, hp⟩ := (h.route y (hin y (.inl hych))).net_of_mask hym
      exact chainHit_iff hp (hD y hych p hp.le_nbits)
    cases hf : scan.find? fun y => chainHit v (-1 - (D : Int)) m y.route with
    | some f =>
      obtain ⟨hfa, as, bs, hsplit, has⟩ := List.find?_eq_some_iff_append.1 hf
      refine .inl ⟨f.route.pair, rfl, hbest (pre ++ as) bs (by rw [hpre, hsplit, List.append_assoc]) ?_
        ((hhit f (by rw [hsplit]; simp)).1 hfa)⟩
      intro y hy hya
      rcases List.mem_append.1 hy with hy | hy
      · exact hprena y hy hya
      · have hna := has y hy
        rw [(hhit y (by rw [hsplit]; simp [hy])).2 hya] at hna
        cases hna
    | none =>
      dsimp only
      have hchna : ∀ y ∈ x :: xs, ¬Applies sh v y.route := by
        intro y hy hya
        rw [hpre] at hy
        rcases List.mem_append.1 hy with hy | hy
        · exact hprena y hy hya
        · exact List.find?_eq_none.1 hf y hy ((hhit y hy).2 hya)
      have hsib : ∀ c ∈ cs, ∀ y ∈ c.sib.members, ∀ q, Net sh q y.route → Applies sh v y.route → q ≤ c.b := by
        intro c hc y hy q hq hya
        obtain ⟨lo, B, -, -, hBin, -, hn⟩ := hctx.node hc
        have hyx : leafBits y c.b ≠ leafBits x c.b := by
          have hxB := hBin x List.mem_cons_self
          cases hr : c.right with
          | true =>
            rw [hn.divides.left y (by rw [Crumb.lefts, if_pos hr]; exact hy),
              hn.divides.right x (by rw [Crumb.rights, if_pos hr]; exact hxB)]
            simp
          | false =>
            rw [hn.divides.right y (by rw [Crumb.rights, if_neg (by simp [hr])]; exact hy),
              hn.divides.left x (by rw [Crumb.lefts, if_neg (by simp [hr])]; exact hxB)]
            simp
        by_contra hlt
        have hym := hin y (.inr (List.mem_flatMap.2 ⟨c, hc, hy⟩))
        have hya' := hq.applies.1 hya
        have hxv := h.best hs List.mem_cons_self hym hq.le_nbits hya'
        exact hyx ((hya' c.b hn.n0_le (by omega)).trans (hxv c.b hn.n0_le (by omega)).symm)
      have hfloor : ∀ y ∈ t.members, Applies sh v y.route → ∀ q, Net sh q y.route → q < floor cs := by
        intro y hy hya q hq
        rw [hplug] at hy
        rcases mem_plug.1 hy with hy | hy
        · exact absurd hya (hchna y hy)
        · obtain ⟨c, hc, hyc⟩ := List.mem_flatMap.1 hy
          have hle := hsib c hc y hyc q hq hya
          have hlt := hctx.rising.lt_floor c hc
          omega
      rcases searchUp_spec (t := .leaf (x :: xs)) (m := m) x hch hctx (fun y hy => h.route y (hin y hy))
          List.mem_cons_self (hD x List.mem_cons_self) hsib with ⟨y, p, hy, hp, hya, heq, hmax⟩ | ⟨heq, hno⟩
      · refine .inl ⟨y.route.pair, heq, y, hin y hy, rfl, hya, ?_⟩
        intro z hz hza
        obtain ⟨q, hq⟩ := hnohost z hz hza
        rw [hp.len_eq, hq.len_eq]
        have hzc : z ∈ x :: xs ∨ z ∈ outside cs := by
          rw [hplug] at hz
          exact mem_plug.1 hz
        exact hmax z q hzc hq hza (hfloor z hz hza q hq)
      · refine .inr (.inl ⟨?_, .inl heq⟩)
        intro z hz hza
        obtain ⟨q, hq⟩ := hnohost z hz hza
        have hzc : z ∈ x :: xs ∨ z ∈ outside cs := by
          rw [hplug] at hz
          exact mem_plug.1 hz
        exact hno z q hzc hq hza (hfloor z hz hza q hq)

end Match

end BsdKernel.Radix
