import BsdKernel.Net.RadixMemory
/-!
# Deleting a route

`rn_delete` takes the record of the route off the one list it is on
(`dropMask_eq`), takes the leaf out of its chain or its chain out of the tree,
hands the list of a node that goes down to its other child (`demote_spec`) and
moves the inner node behind the leaf. The tree is right afterwards and no node
in use is lost (`deleteLeaf_spec`).
-/

namespace BsdKernel.Radix
open Lib PTree

variable {sh : Shape}
variable {lo b : Nat}

/-! ## Mask lists -/

/-- The node without the record of `ρ`. -/
def leave (ρ : Route) (d : Inner) : Inner := { d with mklist := d.mklist.eraseP fun m => m.owner = ρ.pair }

/-- `leave` where `ρ` belongs. -/
def leaveAt (sh : Shape) (ρ : Route) (lo b : Nat) (d : Inner) : Inner :=
  if ρ.mask.isSome then atLen (ρ.plen sh) (leave ρ) lo b d else d

@[simp] theorem slot_leaveAt (ρ : Route) (lo b : Nat) (d : Inner) : (leaveAt sh ρ lo b d).slot = d.slot := by
  unfold leaveAt atLen
  split
  · split <;> rfl
  · rfl

/-- Only `ρ` itself is stored in its pair. -/
def Own (ρ σ : Route) : Prop := σ.pair = ρ.pair → σ = ρ

section Lists
variable {lo b p : Nat} {mk : List RadixMask} {A A' : List Route} {ρ : Route}

theorem MkOk.owner (h : MkOk sh lo b mk A) (hown : ∀ σ ∈ A, Own ρ σ) {m : RadixMask} (hm : m ∈ mk)
    (ho : m.owner = ρ.pair) : m = rnNewRadixMask ρ ∧ Listed sh lo b ρ := by
  obtain ⟨σ, hσ, hl, rfl⟩ := (h.mem m).1 hm
  obtain rfl := hown σ hσ ho
  exact ⟨rfl, hl⟩

theorem eraseP_owner (h : MkOk sh lo b mk A) (hown : ∀ σ ∈ A, Own ρ σ) :
    (mk.eraseP fun m => m.owner = ρ.pair) = mk.filter fun m => m.owner ≠ ρ.pair := by
  have hone : mk.Pairwise fun m m' => m.owner = ρ.pair → m'.owner ≠ ρ.pair := by
    refine h.sorted.imp_of_mem ?_
    intro m m' hm hm' hlt ho ho'
    rw [(h.owner hown hm ho).1, (h.owner hown hm' ho').1] at hlt
    exact lt_irrefl _ hlt
  clear h
  induction mk with
  | nil => rfl
  | cons m ms ih =>
    obtain ⟨hm, hms⟩ := List.pairwise_cons.1 hone
    by_cases ho : m.owner = ρ.pair
    · have hall : ms.filter (fun m => decide (m.owner ≠ ρ.pair)) = ms := by
        rw [List.filter_eq_self]
        intro m' hm'
        simpa using hm m' hm' ho
      rw [List.eraseP_cons_of_pos (by simpa using ho), List.filter_cons_of_neg (by simpa using ho), hall]
    · rw [List.eraseP_cons_of_neg (by simpa using ho), List.filter_cons_of_pos (by simpa using ho), ih hms]

/-- A list stays right when a route goes from below. -/
theorem MkOk.leaveAt (slot : Pair) (h : MkOk sh lo b mk A) (hρ : RouteOk sh ρ) (hown : ∀ σ ∈ A, Own ρ σ)
    (hA : ∀ σ, σ ∈ A' ↔ σ ∈ A ∧ σ ≠ ρ) : MkOk sh lo b (leaveAt sh ρ lo b ⟨slot, mk⟩).mklist A' := by
  have hold : ¬Listed sh lo b ρ → MkOk sh lo b mk A' := by
    intro hn
    refine ⟨?_, h.sorted⟩
    intro m
    rw [h.mem]
    constructor
    · rintro ⟨σ, hσ, hl, rfl⟩
      refine ⟨σ, (hA σ).2 ⟨hσ, ?_⟩, hl, rfl⟩
      rintro rfl
      exact hn hl
    · rintro ⟨σ, hσ, hl, rfl⟩
      exact ⟨σ, ((hA σ).1 hσ).1, hl, rfl⟩
  unfold Radix.leaveAt
  by_cases hm : ρ.mask.isSome
  · obtain ⟨p, hp⟩ := hρ.net_of_mask hm
    rw [if_pos hm, hp.plen_eq, atLen]
    by_cases hr : lo ≤ p ∧ p ≤ b
    · rw [if_pos hr, leave]
      dsimp only
      rw [eraseP_owner h hown]
      refine ⟨?_, h.sorted.filter _⟩
      intro m
      rw [List.mem_filter, h.mem, decide_eq_true_eq]
      constructor
      · rintro ⟨⟨σ, hσ, hl, rfl⟩, hne⟩
        refine ⟨σ, (hA σ).2 ⟨hσ, ?_⟩, hl, rfl⟩
        rintro rfl
        exact hne rfl
      · rintro ⟨σ, hσ, hl, rfl⟩
        obtain ⟨hσA, hne⟩ := (hA σ).1 hσ
        exact ⟨⟨σ, hσA, hl, rfl⟩, fun ho => hne (hown σ hσA ho)⟩
    · rw [if_neg hr]
      refine hold ?_
      rintro ⟨q, hq, h1, h2⟩
      obtain rfl := hp.unique hq
      exact hr ⟨h1, h2⟩
  · rw [if_neg hm]
    refine hold ?_
    rintro ⟨q, hq, -, -⟩
    rw [hq.mask] at hm
    exact hm rfl

end Lists

/-! ## The path above a route -/

section Path
variable {ρ : Route} {cs : List Crumb} {A A' : List Leaf}

/-- The climb ends at the list with the record. -/
theorem highest_has {p : Nat} {c : Crumb} (h : CtxHolds (NodeOk sh) (ChainOk sh) (c :: cs) A) (hρ : ρ ∈ routes A)
    (hp : Net sh p ρ) (hpb : p ≤ c.b) :
    ∃ d, highest (-1 - indexOf sh p) (c :: cs) = some d ∧ rnNewRadixMask ρ ∈ d.mklist := by
  induction cs generalizing c A with
  | nil =>
    refine ⟨c.d, rfl, (h.2.1.list.mem _).2 ⟨ρ, ?_, ⟨p, hp, Nat.zero_le p, hpb⟩, rfl⟩⟩
    obtain ⟨x, hx, rfl⟩ := mem_routes.1 hρ
    exact mem_routes.2 ⟨x, mem_sides.2 (.inl hx), rfl⟩
  | cons c' cs ih =>
    have hρ' : ρ ∈ routes (c.lefts A ++ c.rights A) := by
      obtain ⟨x, hx, rfl⟩ := mem_routes.1 hρ
      exact mem_routes.2 ⟨x, mem_sides.2 (.inl hx), rfl⟩
    have hc' : sh.n0 ≤ c'.b := ctx_n0 h c' (by simp)
    rw [highest, lifts_cons hc']
    by_cases hpb' : p ≤ c'.b
    · rw [if_pos (by simpa using hpb')]
      exact ih h.2.2.2 hρ' hpb'
    · rw [if_neg (by simpa using hpb')]
      refine ⟨c.d, rfl, (h.2.1.list.mem _).2 ⟨ρ, hρ', ⟨p, hp, ?_, hpb⟩, rfl⟩⟩
      rw [floor_cons]
      omega

/-- `rn_delete` finds the annotation of a route and takes it off. -/
theorem dropMask_eq {tt : Leaf} (h : CtxHolds (NodeOk sh) (ChainOk sh) cs A) (htt : tt ∈ A)
    (hr : RouteOk sh tt.route) (hm : MarkOk sh (floor cs) tt)
    (hown : ∀ x, x ∈ A ∨ x ∈ outside cs → Own tt.route x.route) :
    dropMask tt cs = .done (mapPath (leaveAt sh tt.route) cs) := by
  cases hmask : tt.route.mask with
  | none =>
    have hle : leaveAt sh tt.route = fun _ _ d => d := by
      funext lo b d
      rw [leaveAt, if_neg (by simp [hmask])]
    rw [hle, mapPath_id, dropMask, hmask]
  | some m =>
    obtain ⟨p, hp⟩ := hr.net_of_mask (by simp [hmask])
    have hle : leaveAt sh tt.route = atLen p (leave tt.route) := by
      funext lo b d
      rw [leaveAt, if_pos (by simp [hmask]), hp.plen_eq]
    rw [hle]
    have hmk := hm.net p hp
    by_cases hpf : p < floor cs
    · rw [if_pos hpf] at hmk
      cases cs with
      | nil => exact absurd hpf (Nat.not_lt_zero p)
      | cons c cs =>
        rw [floor_cons] at hpf
        have hpb : p ≤ c.b := Nat.le_of_lt_succ hpf
        obtain ⟨d, hd, hmem⟩ := highest_has h (mem_routes.2 ⟨tt, htt, rfl⟩) hp hpb
        obtain ⟨c', hc', rfl⟩ := highest_mem hd
        -- the one record with this owner is the route's
        have hfind : ((c :: cs).flatMap (·.d.mklist)).find? (fun m => m.owner = tt.route.pair) =
            some (rnNewRadixMask tt.route) := by
          cases hf : ((c :: cs).flatMap (·.d.mklist)).find? (fun m => m.owner = tt.route.pair) with
          | none =>
            rw [List.find?_eq_none] at hf
            exact absurd (by simp [rnNewRadixMask]) (hf _ (List.mem_flatMap.2 ⟨c', hc', hmem⟩))
          | some m' =>
            have ho : m'.owner = tt.route.pair := by simpa using List.find?_some hf
            obtain ⟨c'', hc'', hm'⟩ := List.mem_flatMap.1 (List.mem_of_find?_eq_some hf)
            obtain ⟨lo, B, -, -, -, hout, hn⟩ := h.node hc''
            rw [(hn.list.owner ?_ hm' ho).1]
            intro σ hσ
            obtain ⟨x, hx, rfl⟩ := mem_routes.1 hσ
            refine hown x ?_
            rcases mem_sides.1 hx with hx | hx
            · exact hout x hx
            · exact .inr (List.mem_flatMap.2 ⟨c'', hc'', hx⟩)
        have hcut : cutMask tt.route tt.route.pair (c :: cs) = .done (mapPath (atLen p (leave tt.route)) (c :: cs)) := by
          unfold cutMask
          have hany : (c'.d.mklist.any fun m => m.owner = tt.route.pair) = true :=
            List.any_eq_true.2 ⟨_, hmem, by simp [rnNewRadixMask]⟩
          rw [hp.b, lifts_cons (ctx_n0 h c List.mem_cons_self), if_pos (by simpa using hpb), hd, Option.map_some,
            Option.getD_some, if_pos hany, atHighest_eq h.rising (ctx_n0 h) hpb]
          rfl
        unfold dropMask
        rw [hmask, hmk]
        dsimp only
        rw [hfind, ← hmask]
        dsimp only
        by_cases hnorm : tt.route.normal = true
        · rw [if_pos hnorm, if_neg, hcut]
          simp [rnNewRadixMask, hnorm]
        · rw [if_neg hnorm, if_neg, if_neg, hcut]
          · simp [rnNewRadixMask]
          · simp [rnNewRadixMask, hnorm]
    · rw [if_neg hpf] at hmk
      rw [dropMask, hmask, hmk, mapPath_same]
      intro c hc lo d
      have := h.rising.lt_floor c hc
      rw [atLen, if_neg (by omega)]

/-- The path above a route that goes, with its record off, is right again. -/
theorem ctx_leave (h : CtxHolds (NodeOk sh) (ChainOk sh) cs A) (hρ : RouteOk sh ρ)
    (hown : ∀ x, x ∈ A ∨ x ∈ outside cs → Own ρ x.route) (hout : ∀ x ∈ outside cs, x.route ≠ ρ)
    (hA : ∀ σ, σ ∈ routes A' ↔ σ ∈ routes A ∧ σ ≠ ρ) :
    CtxHolds (NodeOk sh) (ChainOk sh) (mapPath (leaveAt sh ρ) cs) A' := by
  have hsides : ∀ (A A' : List Leaf) (c : Crumb), (∀ x ∈ c.sib.members, x.route ≠ ρ) →
      (∀ σ, σ ∈ routes A' ↔ σ ∈ routes A ∧ σ ≠ ρ) → ∀ σ,
      σ ∈ routes (c.lefts A' ++ c.rights A') ↔ σ ∈ routes (c.lefts A ++ c.rights A) ∧ σ ≠ ρ := by
    intro A A' c hc hr σ
    have hmem : ∀ B, σ ∈ routes (c.lefts B ++ c.rights B) ↔ σ ∈ routes B ∨ σ ∈ routes c.sib.members := by
      intro B
      simp only [mem_routes, mem_sides, or_and_right, exists_or]
    rw [hmem, hmem, hr]
    constructor
    · rintro (hσ | hσ)
      · exact ⟨.inl hσ.1, hσ.2⟩
      · refine ⟨.inr hσ, ?_⟩
        obtain ⟨x, hx, rfl⟩ := mem_routes.1 hσ
        exact hc x hx
    · rintro ⟨hσ | hσ, hne⟩
      · exact .inl ⟨hσ, hne⟩
      · exact .inr hσ
  refine CtxHolds.update (E := fun A A' => ∀ σ, σ ∈ routes A' ↔ σ ∈ routes A ∧ σ ≠ ρ) (G := fun x => Own ρ x.route)
    (K := fun c => ∀ x ∈ c.sib.members, x.route ≠ ρ) ?_ ?_ (Nat.le_refl (floor cs)) ?_ ?_ h hA
  · exact fun A A' c hc hr => hsides A A' c hc hr
  · intro lo d A A' c hc _ hG hn hr
    refine ⟨hn.n0_le, hn.lt_nbits, hn.divides.replace hn.n0_le ?_, ?_⟩
    · intro x' hx'
      obtain ⟨y, hy, hyx⟩ := mem_routes.1 ((hr x'.route).1 (mem_routes.2 ⟨x', hx', rfl⟩)).1
      refine ⟨y, hy, ?_⟩
      unfold leafBits
      rw [hyx]
      exact fun _ _ _ => rfl
    · refine hn.list.leaveAt d.slot hρ ?_ (hsides A A' c hc hr)
      intro σ hσ
      obtain ⟨x, hx, rfl⟩ := mem_routes.1 hσ
      exact hG x hx
  · exact fun c hc x hx => hout x (List.mem_flatMap.2 ⟨c, hc, hx⟩)
  · exact fun x hx => hown x (List.mem_append.1 hx)

end Path

/-! ## Demotion -/

theorem MkOk.unique {mk mk' : List RadixMask} {A : List Route} (h : MkOk sh lo b mk A) (h' : MkOk sh lo b mk' A) :
    mk = mk' := by
  have hnodup : ∀ {l : List RadixMask}, (l.Pairwise fun m m' => m.b < m'.b) → l.Nodup := by
    intro l hl
    refine hl.imp ?_
    rintro m m' hlt rfl
    exact lt_irrefl _ hlt
  have hperm : mk.Perm mk' := by
    rw [List.perm_ext_iff_of_nodup (hnodup h.sorted) (hnodup h'.sorted)]
    intro m
    rw [h.mem, h'.mem]
  refine hperm.eq_of_pairwise ?_ h.sorted h'.sorted
  intro m m' _ _ hlt hgt
  omega

/-- The list of a node continues the list of the node below it. -/
theorem MkOk.join {c : Nat} {mk mk' : List RadixMask} {A : List Route} (h : MkOk sh (b + 1) c mk A)
    (h' : MkOk sh lo b mk' A) (hlo : lo ≤ b) (hbc : b < c) : MkOk sh lo c (mk ++ mk') A := by
  constructor
  · intro m
    rw [List.mem_append, h.mem, h'.mem]
    constructor
    · rintro (⟨ρ, hρ, ⟨p, hp, h1, h2⟩, rfl⟩ | ⟨ρ, hρ, ⟨p, hp, h1, h2⟩, rfl⟩)
      · exact ⟨ρ, hρ, ⟨p, hp, by omega, h2⟩, rfl⟩
      · exact ⟨ρ, hρ, ⟨p, hp, h1, by omega⟩, rfl⟩
    · rintro ⟨ρ, hρ, ⟨p, hp, h1, h2⟩, rfl⟩
      by_cases hpb : p ≤ b
      · exact .inr ⟨ρ, hρ, ⟨p, hp, h1, hpb⟩, rfl⟩
      · exact .inl ⟨ρ, hρ, ⟨p, hp, by omega, h2⟩, rfl⟩
  · refine List.pairwise_append.2 ⟨h.sorted, h'.sorted, ?_⟩
    intro m hm m' hm'
    obtain ⟨ρ, -, ⟨p, hp, h1, -⟩, rfl⟩ := (h.mem m).1 hm
    obtain ⟨σ, -, ⟨q, hq, -, h2⟩, rfl⟩ := (h'.mem m').1 hm'
    rw [b_rnNewRadixMask, b_rnNewRadixMask, hp.b, hq.b, indexOf_lt hp.n0_le hq.n0_le]
    omega

/-- The leaves of a chain whose records are on the list of their parent. -/
def onList (sh : Shape) (lo b : Nat) (x : Leaf) : Bool :=
  x.route.mask.isSome && decide (lo ≤ x.route.plen sh) && decide (x.route.plen sh ≤ b)

theorem onList_iff {x : Leaf} (hr : RouteOk sh x.route) : onList sh lo b x = true ↔ Listed sh lo b x.route := by
  unfold onList
  rw [Bool.and_eq_true, Bool.and_eq_true, decide_eq_true_eq, decide_eq_true_eq]
  constructor
  · rintro ⟨⟨hm, h1⟩, h2⟩
    obtain ⟨p, hp⟩ := hr.net_of_mask hm
    rw [hp.plen_eq] at h1 h2
    exact ⟨p, hp, h1, h2⟩
  · rintro ⟨p, hp, h1, h2⟩
    rw [hp.plen_eq, hp.mask]
    exact ⟨⟨rfl, h1⟩, h2⟩

/-- The walk along the chain and the list meets every leaf that is on the list. -/
theorem demoteChain_eq {q : Leaf → Bool} {ch : List Leaf} (hq : ∀ x ∈ ch, q x = true → x.mklist = some x.route.pair)
    (hown : ∀ x ∈ ch, x.mklist = none ∨ x.mklist = some x.route.pair)
    (hnd : (ch.map (·.route.pair)).Nodup) :
    demoteChain ((ch.filter q).map fun x => rnNewRadixMask x.route) ch =
      ch.map fun x => if q x then { x with mklist := none } else x := by
  induction ch with
  | nil => rfl
  | cons x xs ih =>
    rw [List.map_cons, List.nodup_cons] at hnd
    have ih' := ih (fun y hy => hq y (List.mem_cons_of_mem x hy)) (fun y hy => hown y (List.mem_cons_of_mem x hy)) hnd.2
    rw [List.map_cons]
    by_cases hx : q x = true
    · rw [List.filter_cons_of_pos hx, List.map_cons, demoteChain, if_pos, ih', if_pos hx]
      rw [hq x List.mem_cons_self hx]
      rfl
    · rw [List.filter_cons_of_neg hx, if_neg hx, ← ih']
      cases hf : xs.filter q with
      | nil =>
        rw [List.map_nil, demoteChain]
        cases xs <;> rfl
      | cons y ys =>
        rw [List.map_cons, demoteChain, if_neg]
        have hy : y ∈ xs := (List.mem_filter.1 (hf ▸ List.mem_cons_self)).1
        have hne : x.route.pair ≠ y.route.pair := by
          intro he
          exact hnd.1 (List.mem_map.2 ⟨y, hy, he.symm⟩)
        rcases hown x List.mem_cons_self with hn | hn
        · rw [hn]
          simp
        · rw [hn]
          simpa [rnNewRadixMask] using hne

theorem demote_spec {mk : List RadixMask} {x : Tree} (h : Holds (NodeOk sh) (ChainOk sh) (b + 1) x) (hlo : lo ≤ b)
    (hmk : MkOk sh lo b mk (routes x.members)) (hr : ∀ y ∈ x.members, RouteOk sh y.route)
    (hnd : (x.members.map (·.route.pair)).Nodup) :
    Holds (NodeOk sh) (ChainOk sh) lo (demote mk x) ∧ routes (demote mk x).members = routes x.members ∧
      slots (demote mk x) = slots x ∧ chains (demote mk x) = chains x := by
  cases x with
  | leaf ch =>
    have hch : ChainOk sh (b + 1) ch := h
    have hiff : ∀ x ∈ ch, onList sh lo b x = true ↔ Listed sh lo b x.route := fun x hx => onList_iff (hr x hx)
    have hmark : ∀ x ∈ ch, x.mklist = none ∨ x.mklist = some x.route.pair := by
      intro x hx
      cases hm : x.route.mask with
      | none => exact .inl ((hch.mark x hx).unmasked hm)
      | some m =>
        obtain ⟨p, hp⟩ := (hr x hx).net_of_mask (by simp [hm])
        rw [(hch.mark x hx).net p hp]
        split
        · exact .inr rfl
        · exact .inl rfl
    have hset : ∀ x ∈ ch, onList sh lo b x = true → x.mklist = some x.route.pair := by
      intro x hx hq
      obtain ⟨p, hp, -, hpb⟩ := (hiff x hx).1 hq
      rw [(hch.mark x hx).net p hp, if_pos (by omega)]
    have hlist : mk = (ch.filter (onList sh lo b)).map fun x => rnNewRadixMask x.route :=
      hmk.unique (mkOk_chain hch.order hiff)
    rw [hlist, demote, demoteChain_eq hset hmark hnd]
    have hroute : ∀ x : Leaf, (if onList sh lo b x then { x with mklist := none } else x).route = x.route := by
      intro x
      split <;> rfl
    refine ⟨⟨?_, ?_, ?_, ?_⟩, ?_, rfl, ?_⟩
    · simpa using hch.ne
    · intro x hx y hy
      obtain ⟨x', hx', rfl⟩ := List.mem_map.1 hx
      obtain ⟨y', hy', rfl⟩ := List.mem_map.1 hy
      unfold leafBits
      rw [hroute, hroute]
      exact hch.agree x' hx' y' hy'
    · rw [List.pairwise_map]
      refine hch.order.imp ?_
      intro x y hxy
      unfold Before
      rw [hroute, hroute]
      exact hxy
    · intro y hy
      obtain ⟨x, hx, rfl⟩ := List.mem_map.1 hy
      have hm := hch.mark x hx
      split
      · next hq =>
        obtain ⟨p, hp, hlop, hpb⟩ := (hiff x hx).1 hq
        refine ⟨fun _ => rfl, ?_⟩
        intro r hnet
        obtain rfl := hp.unique hnet
        rw [if_neg (by omega)]
      · next hq =>
        refine ⟨hm.unmasked, ?_⟩
        intro p hnet
        rw [hm.net p hnet]
        by_cases hplo : p < lo
        · rw [if_pos (by omega), if_pos hplo]
        · rw [if_neg hplo, if_neg]
          intro hpb
          exact hq ((hiff x hx).2 ⟨p, hnet, by omega, by omega⟩)
    · rw [members_leaf, members_leaf, routes, routes, List.map_map]
      exact List.map_congr_left fun x _ => hroute x
    · simp only [chains, buckets_leaf, List.map_cons, List.map_map, List.map_nil]
      congr 1
      refine List.map_congr_left ?_
      intro x _
      simp only [Function.comp, hroute]
  | node d c l r =>
    obtain ⟨hbc, hn, hl, hr'⟩ := h
    exact ⟨⟨by omega, ⟨hn.n0_le, hn.lt_nbits, hn.divides, hn.list.join hmk hlo hbc⟩, hl, hr'⟩, rfl, rfl, rfl⟩

/-! ## Taking a leaf out -/

/-- The rest of the invariant follows from the tree's shape and its routes. -/
theorem TreeOk.shrink {t t' : Tree} {ρ : Route} (h : TreeOk sh t) (hroot : ρ.root = false)
    (hh : Holds (NodeOk sh) (ChainOk sh) 0 t') (ht : TopBit sh.n0 t')
    (hp : (ρ :: Radix.routes t'.members).Perm (Radix.routes t.members)) : TreeOk sh t' := by
  have hmem : ∀ σ, σ ∈ Radix.routes t'.members → σ ∈ Radix.routes t.members :=
    fun σ hσ => hp.mem_iff.1 (List.mem_cons_of_mem ρ hσ)
  have hkeep : ∀ σ ∈ Radix.routes t.members, σ.root = true → σ ∈ Radix.routes t'.members := by
    intro σ hσ hr
    rcases List.mem_cons.1 (hp.mem_iff.2 hσ) with rfl | hσ
    · rw [hroot] at hr
      cases hr
    · exact hσ
  refine ⟨hh, ht, ?_, ?_, hkeep _ h.zeros rfl, hkeep _ h.ones rfl⟩
  · intro x hx
    obtain ⟨y, hy, hyx⟩ := mem_routes.1 (hmem _ (mem_routes.2 ⟨x, hx, rfl⟩))
    rw [← hyx]
    exact h.route y hy
  · have hpp := hp.map (·.pair)
    unfold Radix.routes at hpp
    rw [List.map_cons, List.map_map, List.map_map] at hpp
    exact (List.nodup_cons.1 (hpp.nodup_iff.2 h.pairs)).2

theorem slots_relocate {p s : Pair} (t : Tree) :
    slots (t.mapInner fun d => if d.slot = p then { d with slot := s } else d) = moved p s (slots t) := by
  unfold slots moved
  rw [inner_mapInner, List.map_map, List.map_map]
  refine List.map_congr_left ?_
  intro d _
  simp only [Function.comp]
  split <;> rfl

theorem topBit_mapInner {f : Inner → Inner} {t : Tree} (h : TopBit b t) : TopBit b (t.mapInner f) := by
  obtain ⟨d, l, r, rfl⟩ := h
  exact ⟨f d, l.mapInner f, r.mapInner f, rfl⟩

theorem holds_relocate {p s : Pair} {t : Tree} (h : Holds (NodeOk sh) (ChainOk sh) lo t) :
    Holds (NodeOk sh) (ChainOk sh) lo (t.mapInner fun d => if d.slot = p then { d with slot := s } else d) := by
  refine holds_mapInner ?_ h
  intro lo b d L R hn
  refine ⟨hn.n0_le, hn.lt_nbits, hn.divides, ?_⟩
  split
  · exact hn.list
  · exact hn.list

/-- What deleting a route does to a tree. -/
structure Left (sh : Shape) (ρ : Route) (t t' : Tree) : Prop where
  holds : Holds (NodeOk sh) (ChainOk sh) 0 t'
  top : TopBit sh.n0 t'
  routes : (ρ :: routes t'.members).Perm (routes t.members)
  stored : Stored (slots t') (chains t')

section Eliminate
variable {t : Tree} {v : Key} {cs : List Crumb} {ch : List Leaf} {tt : Leaf}

/-- The leaf is one of several of its chain. -/
theorem eliminate_chain (h : TreeOk sh t) (hst : Stored (slots t) (chains t)) (hplug : t = plug cs (.leaf ch))
    (hch : ChainOk sh (floor cs) ch) (htt : tt ∈ ch) (hz : tt.route.pair ≠ .zeros) (ho : tt.route.pair ≠ .ones)
    (hctx : ∀ A', (∀ σ, σ ∈ routes A' ↔ σ ∈ routes ch ∧ σ ≠ tt.route) →
      CtxHolds (NodeOk sh) (ChainOk sh) (mapPath (leaveAt sh tt.route) cs) A')
    {x : Leaf} {rest : List Leaf} (he : ch.erase tt = x :: rest) :
    ∃ t', eliminate tt (mapPath (leaveAt sh tt.route) cs) ch = some t' ∧ Left sh tt.route t t' := by
  have hpairs : ((ch ++ outside cs).map (·.route.pair)).Nodup := by
    have := h.pairs
    rw [hplug] at this
    exact ((perm_plug cs (.leaf ch)).map _).nodup_iff.1 this
  rw [List.map_append] at hpairs
  have hinj := List.inj_on_of_nodup_map (List.Nodup.of_append_left hpairs)
  have hnd : ch.Nodup := List.Nodup.of_map _ (List.Nodup.of_append_left hpairs)
  have hperm := List.perm_cons_erase htt
  have hmem : ∀ y, y ∈ x :: rest ↔ y ∈ ch ∧ y ≠ tt := by
    intro y
    rw [← he, hnd.mem_erase_iff, and_comm]
  have hmemr : ∀ σ, σ ∈ routes (x :: rest) ↔ σ ∈ routes ch ∧ σ ≠ tt.route := by
    intro σ
    simp only [mem_routes, hmem]
    constructor
    · rintro ⟨y, ⟨hy, hne⟩, rfl⟩
      exact ⟨⟨y, hy, rfl⟩, fun heq => hne (hinj hy htt (congrArg Route.pair heq))⟩
    · rintro ⟨⟨y, hy, rfl⟩, hne⟩
      refine ⟨y, ⟨hy, ?_⟩, rfl⟩
      rintro rfl
      exact hne rfl
  have hsub : (x :: rest).Sublist ch := he ▸ List.erase_sublist
  have hchain : ChainOk sh (floor cs) (x :: rest) :=
    ⟨by simp, fun y hy z hz => hch.agree y (hsub.subset hy) z (hsub.subset hz), hch.order.sublist hsub,
      fun y hy => hch.mark y (hsub.subset hy)⟩
  generalize htop : plug (mapPath (leaveAt sh tt.route) cs) (.leaf (x :: rest)) = top
  have hholds : Holds (NodeOk sh) (ChainOk sh) 0 top := by
    rw [← htop, holds_plug, floor_mapPath]
    exact ⟨hchain, hctx _ hmemr⟩
  have hbit : TopBit sh.n0 top := by
    have hcs := path_ne h.top hplug fun d l r hx => by cases hx
    rw [← htop, topBit_iff (mapPath_ne hcs), bits_mapPath, ← topBit_iff hcs (.leaf ch), ← hplug]
    exact h.top
  have hroutes : (tt.route :: routes top.members).Perm (routes t.members) := by
    rw [← htop, hplug]
    refine List.Perm.trans ?_ (((perm_plug cs (.leaf ch)).map _).symm)
    refine ((((perm_plug _ _).map _).cons _)).trans ?_
    rw [outside_mapPath, members_leaf, members_leaf, ← List.map_cons, ← List.cons_append]
    rw [he] at hperm
    exact (hperm.symm.append_right _).map _
  have hslots : (slots top).Perm (slots t) := by
    rw [← htop, hplug]
    exact (slots_plug (slot_leaveAt tt.route) cs (.leaf (x :: rest))).trans (slots_split cs (.leaf ch)).symm
  have hchperm : (tt.route.pair :: (x :: rest).map (·.route.pair)).Perm (ch.map (·.route.pair)) := by
    rw [he] at hperm
    exact (hperm.map fun y => y.route.pair).symm
  have hst' : Stored (slots t) (ch.map (·.route.pair) :: (beside cs).map fun ch => ch.map (·.route.pair)) := by
    refine hst.perm (List.Perm.refl _) ?_
    rw [hplug]
    exact (chains_split cs (.leaf ch)).symm
  obtain ⟨hfree, hstored⟩ := (hst'.permChain hchperm).unlink (s := x.route.pair) hz ho (by simp)
  have hchains : (chains top).Perm ((x :: rest).map (·.route.pair) ::
      (beside cs).map fun ch => ch.map (·.route.pair)) := by
    rw [← htop]
    exact chains_plug _ cs _
  unfold eliminate
  rw [he]
  dsimp only
  rw [htop]
  have hiff : tt.route.pair ∈ top.inner.map (·.slot) ↔ tt.route.pair ∈ slots t := hslots.mem_iff
  by_cases hin : tt.route.pair ∈ slots t
  · rw [if_pos (hiff.2 hin), relocate, if_pos ⟨hiff.2 hin, fun hx => hfree hin (hslots.mem_iff.1 hx)⟩]
    refine ⟨_, rfl, holds_relocate hholds, topBit_mapInner hbit, by rw [members_mapInner]; exact hroutes, ?_⟩
    rw [slots_relocate, chains, buckets_mapInner]
    rw [if_pos hin] at hstored
    exact hstored.perm (hslots.map _) hchains
  · rw [if_neg (hiff.not.2 hin)]
    rw [if_neg hin] at hstored
    exact ⟨_, rfl, hholds, hbit, hroutes, hstored.perm hslots hchains⟩

/-- The leaf is alone in its chain: its parent goes with it. -/
theorem eliminate_alone (h : TreeOk sh t) (hst : Stored (slots t) (chains t)) (hplug : t = plug cs (.leaf [tt]))
    (hz : tt.route.pair ≠ .zeros) (ho : tt.route.pair ≠ .ones) (hroot : tt.route.root = false)
    (hold : CtxHolds (NodeOk sh) (ChainOk sh) cs [tt])
    (hctx : CtxHolds (NodeOk sh) (ChainOk sh) (mapPath (leaveAt sh tt.route) cs) []) :
    ∃ t', eliminate tt (mapPath (leaveAt sh tt.route) cs) [tt] = some t' ∧ Left sh tt.route t t' := by
  have hcs := path_ne h.top hplug fun d l r hx => by cases hx
  have htop := h.top
  rw [hplug, topBit_iff hcs] at htop
  match cs, hcs with
  | [c], _ =>
    -- both sides of the top hold a leaf of `rn_inithead`, so neither goes
    exfalso
    simp only [List.map_cons, List.map_nil, List.getLast?_singleton, Option.some.injEq] at htop
    have hside : ∀ σ ∈ Radix.routes t.members, ∃ y, (y ∈ c.lefts [tt] ∨ y ∈ c.rights [tt]) ∧ y.route = σ := by
      intro σ hσ
      obtain ⟨y, hy, rfl⟩ := mem_routes.1 hσ
      rw [hplug, plug_cons, plug_nil, members_fill] at hy
      exact ⟨y, List.mem_append.1 hy, rfl⟩
    have hdiv := hold.2.1.divides
    rw [htop] at hdiv
    have hn0 := sh.n0_lt
    cases hr : c.right with
    | true =>
      obtain ⟨y, hy, hyr⟩ := hside _ h.ones
      rcases hy with hy | hy
      · have hb := hdiv.left y hy
        unfold leafBits at hb
        rw [hyr, onesLeaf, bitSet_rnOnes hn0] at hb
        cases hb
      · rw [Crumb.rights, if_pos hr, List.mem_singleton] at hy
        rw [hy] at hyr
        rw [hyr] at hroot
        cases hroot
    | false =>
      obtain ⟨y, hy, hyr⟩ := hside _ h.zeros
      rcases hy with hy | hy
      · rw [Crumb.lefts, if_neg (by simp [hr]), List.mem_singleton] at hy
        rw [hy] at hyr
        rw [hyr] at hroot
        cases hroot
      · have hb := hdiv.right y hy
        unfold leafBits at hb
        rw [hyr, zerosLeaf, bitSet_rnZeros] at hb
        cases hb
  | c :: p :: cs, _ =>
    obtain ⟨hlo, hn, hsib, hrest⟩ := hctx
    have hsides : ∀ c : Crumb, c.lefts [] ++ c.rights [] = c.sib.members := by
      intro c
      cases hr : c.right <;> simp [Crumb.lefts, Crumb.rights, hr]
    rw [hsides] at hrest
    have hmem : ∀ y ∈ c.sib.members, y ∈ t.members := by
      intro y hy
      rw [hplug]
      exact mem_plug.2 (.inr (by simp [hy]))
    have hnd : (c.sib.members.map (·.route.pair)).Nodup := by
      have hp := h.pairs
      rw [hplug] at hp
      have := ((perm_plug _ _).map fun y : Leaf => y.route.pair).nodup_iff.1 hp
      rw [outside_cons, List.map_append, List.map_append] at this
      exact List.Nodup.of_append_left (List.Nodup.of_append_right this)
    have hlist := hn.list
    rw [hsides] at hlist
    rw [floor_mapPath] at hlo hlist
    obtain ⟨hd, hdr, hds, hdc⟩ := demote_spec hsib hlo hlist (fun y hy => h.route y (hmem y hy)) hnd
    generalize htopt : plug (mapPath (leaveAt sh tt.route) (p :: cs))
      (demote (leaveAt sh tt.route (floor (p :: cs)) c.b c.d).mklist c.sib) = top
    have hholds : Holds (NodeOk sh) (ChainOk sh) 0 top := by
      rw [← htopt, holds_plug, floor_mapPath]
      refine ⟨hd, ?_⟩
      -- demotion only changes marks
      have hsame : mapPath (fun _ _ d => d) (mapPath (leaveAt sh tt.route) (p :: cs)) =
          mapPath (leaveAt sh tt.route) (p :: cs) := mapPath_id _
      rw [← hsame]
      refine CtxHolds.update (E := fun A A' => routes A' = routes A) (G := fun _ => True) (K := fun _ => True) ?_ ?_
        (Nat.le_refl _) (fun _ _ => trivial) (fun _ _ => trivial) hrest hdr
      · intro A A' c _ hr
        cases hc : c.right <;> simp [Crumb.lefts, Crumb.rights, hc, hr]
      · intro lo d A A' c _ _ _ hn hr
        refine ⟨hn.n0_le, hn.lt_nbits, hn.divides.replace hn.n0_le ?_, hn.list.congr ?_⟩
        · intro x' hx'
          have hx'' : x'.route ∈ routes A := by
            rw [← hr]
            exact mem_routes.2 ⟨x', hx', rfl⟩
          obtain ⟨y, hy, hyx⟩ := mem_routes.1 hx''
          refine ⟨y, hy, ?_⟩
          unfold leafBits
          rw [hyx]
          exact fun _ _ _ => rfl
        · intro σ
          cases hc : c.right <;> simp [Crumb.lefts, Crumb.rights, hc, hr]
    have hbit : TopBit sh.n0 top := by
      rw [← htopt, topBit_iff (mapPath_ne (List.cons_ne_nil _ _)), bits_mapPath]
      simpa using htop
    have hroutes : (tt.route :: routes top.members).Perm (routes t.members) := by
      rw [← htopt, hplug]
      refine List.Perm.trans ?_ (((perm_plug _ (.leaf [tt])).map _).symm)
      refine ((((perm_plug _ _).map _).cons _)).trans ?_
      rw [outside_mapPath, List.map_append]
      change (tt.route :: (routes (demote _ c.sib).members ++ routes (outside (p :: cs)))).Perm _
      rw [hdr, members_leaf, List.singleton_append, List.map_cons, outside_cons c, List.map_append]
      exact List.Perm.refl _
    have hslots : (slots t).Perm (c.d.slot :: slots top) := by
      rw [← htopt, hplug]
      refine (slots_split _ _).trans ?_
      refine List.Perm.trans ?_ ((slots_plug (slot_leaveAt tt.route) (p :: cs) _).symm.cons _)
      rw [hds, around_cons, List.map_cons, List.map_append]
      exact List.Perm.refl _
    have hchains : (chains t).Perm ([tt.route.pair] :: chains top) := by
      rw [← htopt, hplug]
      refine (chains_split _ _).trans ?_
      refine List.Perm.trans ?_ ((chains_plug _ (p :: cs) _).symm.cons _)
      rw [hdc, beside_cons, List.map_append]
      exact List.Perm.refl _
    obtain ⟨hmove, hstored⟩ := (hst.perm hslots.symm hchains.symm).remove hz ho
    have helim : eliminate tt (mapPath (leaveAt sh tt.route) (c :: p :: cs)) [tt] =
        if c.d.slot = tt.route.pair then some top else relocate tt.route.pair c.d.slot top := by
      unfold eliminate
      rw [List.erase_cons_head, mapPath, mapPath]
      dsimp only
      rw [slot_leaveAt, ← htopt, mapPath]
    rw [helim]
    by_cases hs : c.d.slot = tt.route.pair
    · rw [if_pos hs]
      rw [if_pos hs] at hstored
      exact ⟨top, rfl, hholds, hbit, hroutes, hstored⟩
    · obtain ⟨hin, hnot⟩ := hmove hs
      rw [if_neg hs, relocate, if_pos ⟨hin, hnot⟩]
      rw [if_neg hs] at hstored
      refine ⟨_, rfl, holds_relocate hholds, topBit_mapInner hbit, by rw [members_mapInner]; exact hroutes, ?_⟩
      rw [slots_relocate, chains, buckets_mapInner]
      exact hstored

/-- `rn_delete` refuses the leaves of `rn_inithead` and takes any other out of the tree. -/
theorem deleteLeaf_spec {hd : Head} (h : TreeOk sh hd.top) (hst : Stored (slots hd.top) (chains hd.top))
    (hs : rnSearch v hd.top = (cs, ch)) (htt : tt ∈ ch)
    (huser : tt.route.root = false → tt.route.pair ≠ .zeros ∧ tt.route.pair ≠ .ones) :
    (tt.route.root = true ∧ deleteLeaf tt cs ch hd = some (none, hd)) ∨
    (tt.route.root = false ∧ ∃ t', deleteLeaf tt cs ch hd = some (some tt.route.pair, { hd with top := t' }) ∧
      Left sh tt.route hd.top t') := by
  obtain ⟨cs', x, xs, hs', hplug, hch, hctx⟩ := h.found v
  rw [hs] at hs'
  cases hs'
  have hmem : ∀ y, y ∈ x :: xs ∨ y ∈ outside cs → y ∈ hd.top.members := by
    intro y hy
    rw [hplug]
    exact mem_plug.2 hy
  have httm := hmem tt (.inl htt)
  have hown : ∀ y, y ∈ x :: xs ∨ y ∈ outside cs → Own tt.route y.route := by
    intro y hy he
    rw [List.inj_on_of_nodup_map h.pairs (hmem y hy) httm he]
  have hout : ∀ y ∈ outside cs, y.route ≠ tt.route := by
    intro y hy he
    have hp := h.pairs
    rw [hplug] at hp
    have hnd := ((perm_plug cs (.leaf (x :: xs))).map fun y : Leaf => y.route.pair).nodup_iff.1 hp
    rw [List.map_append] at hnd
    refine List.disjoint_of_nodup_append hnd (List.mem_map.2 ⟨tt, htt, rfl⟩) (List.mem_map.2 ⟨y, hy, ?_⟩)
    rw [he]
  have hr := h.route tt httm
  have hdrop := dropMask_eq hctx htt hr (hch.mark tt htt) hown
  unfold deleteLeaf
  rw [hdrop]
  dsimp only
  cases hroot : tt.route.root with
  | true =>
    refine .inl ⟨rfl, ?_⟩
    have hmask : tt.route.mask = none := by
      rcases hr with hs | ⟨hf, -⟩ | ⟨p, hp⟩
      · rcases hs with hs | hs <;> rw [hs] <;> rfl
      · rw [hf] at hroot
        cases hroot
      · rw [hp.root] at hroot
        cases hroot
    have hsame : mapPath (leaveAt sh tt.route) cs = cs := by
      refine mapPath_same fun c _ lo d => ?_
      rw [leaveAt, if_neg (by simp [hmask])]
    rw [hsame, ← hplug]
    rfl
  | false =>
    refine .inr ⟨rfl, ?_⟩
    obtain ⟨hz, ho⟩ := huser hroot
    have hctx' : ∀ A', (∀ σ, σ ∈ routes A' ↔ σ ∈ routes (x :: xs) ∧ σ ≠ tt.route) →
        CtxHolds (NodeOk sh) (ChainOk sh) (mapPath (leaveAt sh tt.route) cs) A' :=
      fun A' hA => ctx_leave hctx hr hown hout hA
    have helim : ∃ t', eliminate tt (mapPath (leaveAt sh tt.route) cs) (x :: xs) = some t' ∧
        Left sh tt.route hd.top t' := by
      cases he : (x :: xs).erase tt with
      | cons y ys => exact eliminate_chain h hst hplug hch htt hz ho hctx' he
      | nil =>
        have hone : x :: xs = [tt] := by
          have hperm := List.perm_cons_erase htt
          rw [he] at hperm
          exact List.perm_singleton.1 hperm
        rw [hone] at hplug hctx hctx' ⊢
        refine eliminate_alone h hst hplug hz ho hroot hctx (hctx' [] ?_)
        intro σ
        simp [routes]
    obtain ⟨t', het, hleft⟩ := helim
    refine ⟨t', ?_, hleft⟩
    rw [het]
    rfl

end Eliminate

end BsdKernel.Radix
