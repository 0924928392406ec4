import BsdKernel.Net.RadixAdd
/-!
# Adding a route

`rn_insert` finds the chain with the key or the one place for a new node
(`rnInsert_cases`), and `rn_addroute` keeps the invariant of the tree
(`enterRoute_spec`). `Grown` says how the tree changed in shape, for what its
nodes and chains are stored in.
-/

namespace BsdKernel.Radix
open Lib PTree

variable {sh : Shape}
variable {cs : List Crumb} {b : Nat}

/-! ## `rn_insert` -/

section Insert
variable {t : Tree} {v : Key}

/-- Keys of a tree have the length of its searches. -/
def KeyLen (sh : Shape) (v : Key) : Prop := (byteAt v 0).toNat = sh.vlen

theorem TreeOk.headOff (h : TreeOk sh t) : headOff t = sh.off := by
  rw [h.top.headOff, Shape.n0]
  omega

theorem TreeOk.found (h : TreeOk sh t) (v : Key) : ∃ cs x xs, rnSearch v t = (cs, x :: xs) ∧
    t = plug cs (.leaf (x :: xs)) ∧ ChainOk sh (floor cs) (x :: xs) ∧
    CtxHolds (NodeOk sh) (ChainOk sh) cs (x :: xs) := by
  obtain ⟨hch, hctx⟩ := holds_descend (k := bitSet v) h.holds
  have hplug := plug_descend (bitSet v) t []
  unfold rnSearch
  generalize descend (bitSet v) t [] = found at hch hctx hplug
  obtain ⟨cs, ch⟩ := found
  cases ch with
  | nil => exact absurd rfl hch.ne
  | cons x xs => exact ⟨cs, x, xs, rfl, hplug.symm, hch, hctx⟩

/-- The chain a search ends in shares the longest prefix with the key. -/
theorem TreeOk.best (h : TreeOk sh t) {ch : List Leaf} (hs : rnSearch v t = (cs, ch)) {x y : Leaf} {i : Nat}
    (hx : x ∈ ch) (hy : y ∈ t.members) (hi : i ≤ sh.nbits) (hag : Agree sh.n0 (leafBits y) (bitSet v) i) :
    Agree sh.n0 (leafBits x) (bitSet v) i := by
  refine descend_best (P := NodeOk sh) (Q := ChainOk sh) (fun _ _ _ _ _ hn => nodeOk_divides hn)
    (fun _ _ hc => hc.agree) h.holds [] hy ?_ hi hag
  change x ∈ (rnSearch v t).2
  rw [hs]
  exact hx

theorem TreeOk.in_chain (h : TreeOk sh t) {ch : List Leaf} (hs : rnSearch v t = (cs, ch)) {y : Leaf}
    (hy : y ∈ t.members) (hag : Agree sh.n0 (leafBits y) (bitSet v) sh.nbits) : y ∈ ch := by
  have hmem := mem_descend (P := NodeOk sh) (Q := ChainOk sh) (fun _ _ _ _ _ hn => nodeOk_divides hn)
    h.holds [] hy hag
  change y ∈ (rnSearch v t).2 at hmem
  rwa [hs] at hmem

theorem place_eq (h : TopBit sh.n0 t) (hb : sh.n0 < b) : place v b t = descendTo (bitSet v) b t [] := by
  obtain ⟨d, l, r, rfl⟩ := h
  rw [place, descendTo, if_pos hb]

/-- What `rn_insert` finds out about a key. -/
theorem rnInsert_cases (h : TreeOk sh t) (hv : KeyLen sh v) :
    (∃ cs ch, rnInsert v t = .dup cs ch ∧ rnSearch v t = (cs, ch) ∧
      ∀ x ∈ ch, Agree sh.n0 (leafBits x) (bitSet v) sh.nbits) ∨
    ∃ cs b x, rnInsert v t = .placed cs b x ∧ t = plug cs x ∧ sh.n0 < b ∧ b < sh.nbits ∧ floor cs ≤ b ∧
      (∀ d c l r, x = .node d c l r → b < c) ∧ x.members ≠ [] ∧
      (∀ y ∈ x.members, Agree sh.n0 (leafBits y) (bitSet v) b ∧ leafBits y b = !bitSet v b) ∧
      ∀ y ∈ t.members, ¬Agree sh.n0 (leafBits y) (bitSet v) sh.nbits := by
  obtain ⟨cs, x, xs, hs, hplug, hch, hctx⟩ := h.found v
  have h1 := sh.off_lt
  unfold rnInsert
  simp only [hs, chainKey, h.headOff, show (byteAt v 0).toNat = sh.vlen from hv]
  cases hd : diffByte v x.route.key sh.off (sh.vlen - sh.off) with
  | none =>
    refine .inl ⟨cs, x :: xs, rfl, rfl, ?_⟩
    have hag : Agree sh.n0 (bitSet v) (leafBits x) sh.nbits :=
      agree_of_bytes fun j hj hn => diffByte_none.1 hd j hj (by omega)
    intro y hy
    exact (hch.agree y hy x List.mem_cons_self).trans hag.symm
  | some i =>
    obtain ⟨hag, hdiff, hlow, hhigh⟩ := diffByte_lead hd
    obtain ⟨-, -, -, hne⟩ := diffByte_some hd
    dsimp only
    rw [countDown_leadBit (by simpa using hne)]
    generalize leadBit 7 (byteAt v i ^^^ byteAt x.route.key i) + i * 8 = b at hag hdiff hlow hhigh
    have hbN : b < sh.nbits := by
      unfold Shape.nbits
      omega
    have hx : x ∈ (descend (bitSet v) t []).2 := by
      change x ∈ (rnSearch v t).2
      rw [hs]
      exact List.mem_cons_self
    -- no node that tests the first different bit is on the way
    have hb0 : sh.n0 < b := by
      obtain ⟨d, l, r, rfl⟩ := h.top
      have hbit := h.holds.2.1.divides.found hx
      have : b ≠ sh.n0 := by
        rintro rfl
        exact hdiff hbit.symm
      unfold Shape.n0 at this ⊢
      omega
    have hpl := plug_descendTo (bitSet v) b t []
    have hstop := descendTo_stop (k := bitSet v) (b := b) (t := t) [] (Nat.zero_le b)
    have hfound := descend_descendTo (bitSet v) b t []
    rw [place_eq h.top hb0]
    generalize descendTo (bitSet v) b t [] = at_ at hpl hstop hfound
    obtain ⟨cs', sub⟩ := at_
    have hx' : x ∈ (descend (bitSet v) sub cs').2 := by
      rw [hfound]
      exact hx
    have hxm : x ∈ sub.members := descend_subset _ _ _ x hx'
    have hholds := h.holds
    rw [show t = plug cs' sub from hpl.symm, holds_plug] at hholds
    have hbelow : ∀ d c l r, sub = .node d c l r → b < c := by
      rintro d c l r rfl
      have hle := hstop.2 d c l r rfl
      have hbit := hholds.1.2.1.divides.found hx'
      have : b ≠ c := by
        rintro rfl
        exact hdiff hbit.symm
      omega
    have hsame : ∀ y ∈ sub.members, Agree sh.n0 (leafBits y) (leafBits x) (b + 1) := by
      intro y hy
      cases sub with
      | leaf ch =>
        have hc : ChainOk sh (floor cs') ch := hholds.1
        exact (hc.agree y hy x hxm).mono hbN
      | node d c l r => exact (hholds.1.2.1.divides.agree y hy x hxm).mono (hbelow d c l r rfl)
    refine .inr ⟨cs', b, sub, rfl, hpl.symm, hb0, hbN, hstop.1, hbelow, List.ne_nil_of_mem hxm, ?_, ?_⟩
    · intro y hy
      refine ⟨((hsame y hy).mono (Nat.le_succ b)).trans hag.symm, ?_⟩
      rw [hsame y hy b (by omega) (Nat.lt_succ_self b)]
      unfold leafBits
      cases hvb : bitSet v b <;> cases hkb : bitSet x.route.key b <;> simp_all
    · intro y hy hall
      have := h.best hs List.mem_cons_self hy (Nat.le_refl _) hall b (by omega) hbN
      exact hdiff this.symm

end Insert

/-! ## Entering a leaf -/

/-- The memory of the inner nodes of a tree. -/
def slots (t : Tree) : List Pair := t.inner.map (·.slot)

/-- The memory of the leaves of a tree, chain by chain. -/
def chains (t : Tree) : List (List Pair) := t.buckets.map fun ch => ch.map (·.route.pair)

/-- `t'` is `t` with a leaf of `ρ` in a chain, or on its own below a new node. -/
inductive Grown (ρ : Route) (t t' : Tree) : Prop
  | joined (ch : List Pair) (ch' : List Pair) (rest : List (List Pair)) (hch : (chains t).Perm (ch :: rest))
      (hch' : (chains t').Perm (ch' :: rest)) (hperm : ch'.Perm (ρ.pair :: ch)) (hs : (slots t').Perm (slots t))
  | placed (hch : (chains t').Perm ([ρ.pair] :: chains t)) (hs : (slots t').Perm (ρ.pair :: slots t))

theorem slots_promote (b : Nat) (x : Tree) : slots (promote b x).2 = slots x := by
  cases x <;> rfl

theorem chains_promote (b : Nat) (x : Tree) : chains (promote b x).2 = chains x := by
  cases x with
  | leaf ch =>
    simp only [promote, chains, buckets_leaf, List.map_cons, List.map_map, List.map_nil]
    congr 1
    refine List.map_congr_left ?_
    intro y _
    simp only [Function.comp]
    split <;> rfl
  | node d c l r => rfl

theorem slots_plug {f : Nat → Nat → Inner → Inner} (hf : ∀ lo b d, (f lo b d).slot = d.slot) (cs : List Crumb)
    (x : Tree) : (slots (plug (mapPath f cs) x)).Perm (slots x ++ (around cs).map Inner.slot) := by
  refine ((inner_plug _ _).map Inner.slot).trans ?_
  rw [List.map_append, around_mapPath (g := Inner.slot) hf]
  exact List.Perm.refl _

theorem chains_plug (f : Nat → Nat → Inner → Inner) (cs : List Crumb) (x : Tree) :
    (chains (plug (mapPath f cs) x)).Perm (chains x ++ (beside cs).map fun ch => ch.map (·.route.pair)) := by
  refine ((buckets_plug _ _).map _).trans ?_
  rw [beside_mapPath, List.map_append]
  exact List.Perm.refl _

theorem mapPath_id (cs : List Crumb) : mapPath (fun _ _ d => d) cs = cs := mapPath_same fun _ _ _ _ => rfl

theorem slots_split (cs : List Crumb) (x : Tree) : (slots (plug cs x)).Perm (slots x ++ (around cs).map Inner.slot) := by
  have := slots_plug (f := fun _ _ d => d) (fun _ _ _ => rfl) cs x
  rwa [mapPath_id] at this

theorem chains_split (cs : List Crumb) (x : Tree) :
    (chains (plug cs x)).Perm (chains x ++ (beside cs).map fun ch => ch.map (·.route.pair)) := by
  have := chains_plug (fun _ _ d => d) cs x
  rwa [mapPath_id] at this

theorem markOk_markOf {lo : Nat} {ρ : Route} : MarkOk sh lo ⟨ρ, markOf sh lo ρ⟩ := by
  constructor
  · intro (hm : ρ.mask = none)
    change markOf sh lo ρ = none
    rw [markOf, hm, if_neg (by simp)]
  · intro p (hp : Net sh p ρ)
    change markOf sh lo ρ = _
    rw [markOf, hp.plen_eq, hp.mask]
    simp

/-- The bits of a path do not change with its lists, nor does what its end tests. -/
theorem topBit_iff (hne : cs ≠ []) (t : Tree) : TopBit b (plug cs t) ↔ (cs.map (·.b)).getLast? = some b := by
  induction cs generalizing t with
  | nil => exact absurd rfl hne
  | cons c cs ih =>
    cases cs with
    | nil =>
      have hc := topBit_plug [] c t
      simp only [List.nil_append, plug_cons, plug_nil, List.map_cons, List.map_nil, List.getLast?_singleton,
        Option.some.injEq] at hc ⊢
      constructor
      · rintro ⟨d, l, r, he⟩
        obtain ⟨d', l', r', he'⟩ := hc
        rw [he] at he'
        cases he'
        rfl
      · rintro rfl
        exact hc
    | cons c' cs =>
      rw [plug_cons, ih (by simp)]
      simp

theorem bits_mapPath (f : Nat → Nat → Inner → Inner) (cs : List Crumb) : (mapPath f cs).map (·.b) = cs.map (·.b) := by
  induction cs with
  | nil => rfl
  | cons c cs ih => simp [mapPath, ih]

theorem mapPath_ne {f : Nat → Nat → Inner → Inner} (h : cs ≠ []) : mapPath f cs ≠ [] := by
  cases cs with
  | nil => exact absurd rfl h
  | cons c cs => simp [mapPath]

theorem path_ne {t x : Tree} (ht : TopBit b t) (hp : t = plug cs x) (hx : ∀ d l r, x ≠ .node d b l r) : cs ≠ [] := by
  rintro rfl
  obtain ⟨d, l, r, rfl⟩ := ht
  exact hx d l r hp.symm

theorem TreeOk.grow {t t' : Tree} {ρ : Route} (h : TreeOk sh t) (hρ : RouteOk sh ρ)
    (hnew : ρ.pair ∉ t.members.map (·.route.pair)) (hh : Holds (NodeOk sh) (ChainOk sh) 0 t') (ht : TopBit sh.n0 t')
    (hp : (Radix.routes t'.members).Perm (ρ :: Radix.routes t.members)) : TreeOk sh t' := by
  have hmem : ∀ σ, σ ∈ Radix.routes t'.members ↔ σ = ρ ∨ σ ∈ Radix.routes t.members :=
    fun σ => by rw [hp.mem_iff, List.mem_cons]
  refine ⟨hh, ht, ?_, ?_, (hmem _).2 (.inr h.zeros), (hmem _).2 (.inr h.ones)⟩
  · intro x hx
    rcases (hmem _).1 (mem_routes.2 ⟨x, hx, rfl⟩) with he | he
    · rw [he]
      exact hρ
    · obtain ⟨y, hy, hyx⟩ := mem_routes.1 he
      rw [← hyx]
      exact h.route y hy
  · have hpp := hp.map (·.pair)
    unfold Radix.routes at hpp
    rw [List.map_cons, List.map_map, List.map_map] at hpp
    exact hpp.nodup_iff.2 (List.nodup_cons.2 ⟨hnew, h.pairs⟩)

/-- What adding a route does to a tree. -/
structure Entered (sh : Shape) (ρ : Route) (t t' : Tree) : Prop where
  holds : Holds (NodeOk sh) (ChainOk sh) 0 t'
  top : TopBit sh.n0 t'
  routes : (routes t'.members).Perm (ρ :: routes t.members)
  grown : Grown ρ t t'
  fresh : ∀ x ∈ t.members, Fresh sh ρ x.route

section Enter
variable {t : Tree} {ρ : Route}

theorem floor_le_nbits {A : List Leaf} (h : CtxHolds (NodeOk sh) (ChainOk sh) cs A) : floor cs ≤ sh.nbits := by
  cases cs with
  | nil => exact Nat.zero_le _
  | cons c cs =>
    obtain ⟨_, _, -, -, -, -, hn⟩ := h.node List.mem_cons_self
    exact hn.lt_nbits

/-- The route's key is in the tree: its leaf joins the chain. -/
theorem entered_joined (h : TreeOk sh t) (hρ : RouteOk sh ρ) {ch ch' : List Leaf} (hs : rnSearch ρ.key t = (cs, ch))
    (hag : ∀ x ∈ ch, Agree sh.n0 (leafBits x) (bitSet ρ.key) sh.nbits)
    (hjoin : joinChain ⟨ρ, (liftMask ρ cs).2⟩ ch = some ch') :
    Entered sh ρ t (plug (liftMask ρ cs).1 (.leaf ch')) := by
  obtain ⟨cs', y, ys, hs', hplug, hch, hctx⟩ := h.found ρ.key
  rw [hs] at hs'
  cases hs'
  have hmem : ∀ x, x ∈ (y :: ys) ∨ x ∈ outside cs → x ∈ t.members := by
    intro x hx
    rw [hplug]
    exact mem_plug.2 hx
  obtain ⟨hperm, hord, hmask⟩ := joinChain_spec hch.order (fun x hx => h.route x (hmem x (.inl hx))) hρ hjoin
  have hfresh : ∀ x ∈ t.members, Fresh sh ρ x.route := fun x hx hall => hmask x (h.in_chain hs hx hall)
  have hfresh' : ∀ x, x ∈ (y :: ys) ∨ x ∈ outside cs → Fresh sh ρ x.route := fun x hx => hfresh x (hmem x hx)
  have hy := (hag y List.mem_cons_self).mono (floor_le_nbits hctx)
  rw [liftMask_eq hρ hctx.rising (ctx_n0 hctx) fun hm =>
    ctx_enters hctx hρ hfresh' List.mem_cons_self hy hm] at hperm ⊢
  dsimp only at hperm ⊢
  have hmem' : ∀ x, x ∈ ch' ↔ x = ⟨ρ, markOf sh (floor cs) ρ⟩ ∨ x ∈ y :: ys :=
    fun x => by rw [hperm.mem_iff, List.mem_cons]
  have hkeys : ∀ x ∈ ch', Agree sh.n0 (leafBits x) (bitSet ρ.key) sh.nbits := by
    intro x hx
    rcases (hmem' x).1 hx with rfl | hx
    · exact fun _ _ _ => rfl
    · exact hag x hx
  have hctx' : CtxHolds (NodeOk sh) (ChainOk sh) (mapPath (enterAt sh ρ) cs) ch' := by
    refine ctx_enter hctx hρ hfresh' List.mem_cons_self hy ?_
    intro σ
    simp only [mem_routes, hmem', or_and_right, exists_or, exists_eq_left, eq_comm]
  have hchain : ChainOk sh (floor cs) ch' := by
    refine ⟨?_, ?_, hord, ?_⟩
    · rintro rfl
      exact absurd hperm.length_eq (by simp)
    · exact fun x hx z hz => (hkeys x hx).trans (hkeys z hz).symm
    · intro x hx
      rcases (hmem' x).1 hx with rfl | hx
      · exact markOk_markOf
      · exact hch.mark x hx
  refine ⟨holds_plug.2 ⟨?_, hctx'⟩, ?_, ?_, ?_, hfresh⟩
  · rw [floor_mapPath]
    exact hchain
  · have hcs := path_ne h.top hplug fun d l r hx => by cases hx
    rw [topBit_iff (mapPath_ne hcs), bits_mapPath, ← topBit_iff hcs (.leaf (y :: ys)), ← hplug]
    exact h.top
  · refine ((perm_plug _ _).map _).trans ?_
    rw [outside_mapPath, members_leaf]
    refine ((hperm.append_right (outside cs)).map _).trans ?_
    rw [List.cons_append, List.map_cons, hplug]
    exact ((perm_plug cs (.leaf (y :: ys))).map _).symm.cons ρ
  · rw [hplug]
    exact .joined ((y :: ys).map (·.route.pair)) (ch'.map (·.route.pair)) _ (chains_split cs _)
      (chains_plug _ cs _) (hperm.map _) ((slots_plug (slot_enterAt ρ) cs (.leaf ch')).trans (slots_split cs (.leaf (y :: ys))).symm)

/-- The route's key is new: its leaf gets a node above `x`. -/
theorem entered_placed (h : TreeOk sh t) (hρ : RouteOk sh ρ) {x : Tree} (hplug : t = plug cs x) (hb0 : sh.n0 < b)
    (hbN : b < sh.nbits) (hfl : floor cs ≤ b) (hbelow : ∀ d c l r, x = .node d c l r → b < c) (hne : x.members ≠ [])
    (hxs : ∀ y ∈ x.members, Agree sh.n0 (leafBits y) (bitSet ρ.key) b ∧ leafBits y b = !bitSet ρ.key b)
    (hno : ∀ y ∈ t.members, ¬Agree sh.n0 (leafBits y) (bitSet ρ.key) sh.nbits) {path : List Crumb}
    (hpath : path = newpair ρ.pair (promote b x).1 ρ.key b (promote b x).2 :: cs) :
    Entered sh ρ t (plug (liftMask ρ path).1 (.leaf [⟨ρ, (liftMask ρ path).2⟩])) := by
  have hholds := h.holds
  rw [hplug, holds_plug] at hholds
  obtain ⟨hx, hctx⟩ := hholds
  have hmem : ∀ y, y ∈ x.members ∨ y ∈ outside cs → y ∈ t.members := by
    intro y hy
    rw [hplug]
    exact mem_plug.2 hy
  have hfresh : ∀ y ∈ t.members, Fresh sh ρ y.route := fun y hy hall => absurd hall (hno y hy)
  have hfresh' : ∀ y, y ∈ x.members ∨ y ∈ outside cs → Fresh sh ρ y.route := fun y hy => hfresh y (hmem y hy)
  obtain ⟨hx', hroutes, hmk⟩ := promote_spec hx (by omega) hfl hbelow fun y hy => h.route y (hmem y (.inl hy))
  obtain ⟨x0, hx0⟩ := List.exists_mem_of_ne_nil _ hne
  have hag0 := (hxs x0 hx0).1.mono hfl
  -- the routes below the new node agree with the new one up to its bit
  have hbits : ∀ y ∈ (promote b x).2.members, Agree sh.n0 (leafBits y) (bitSet ρ.key) b ∧
      leafBits y b = !bitSet ρ.key b := by
    intro y hy
    have hr : y.route ∈ routes x.members := by
      rw [← hroutes]
      exact mem_routes.2 ⟨y, hy, rfl⟩
    obtain ⟨z, hz, hzy⟩ := mem_routes.1 hr
    have := hxs z hz
    unfold leafBits at this ⊢
    rwa [hzy] at this
  have hfreshx : ∀ σ ∈ routes x.members, Fresh sh ρ σ := by
    intro σ hσ
    obtain ⟨y, hy, rfl⟩ := mem_routes.1 hσ
    exact hfresh' y (.inl hy)
  have hagx : ∀ σ ∈ routes x.members, Agree sh.n0 (bitSet σ.key) (bitSet ρ.key) b := by
    intro σ hσ
    obtain ⟨y, hy, rfl⟩ := mem_routes.1 hσ
    exact (hxs y hy).1
  have hlift : liftMask ρ path = (mapPath (enterAt sh ρ) path, markOf sh (floor path) ρ) := by
    subst hpath
    refine liftMask_eq hρ ⟨hfl, hctx.rising⟩ ?_ ?_
    · intro c hc
      rcases List.mem_cons.1 hc with rfl | hc
      · exact hb0.le
      · exact ctx_n0 hctx c hc
    · intro hm c hc
      rcases List.mem_cons.1 hc with rfl | hc
      · obtain ⟨p, hp⟩ := hρ.net_of_mask hm
        obtain ⟨mk, heq, -⟩ := enterMask_spec hmk.sorted (hmk.ne hp hfreshx hagx)
        exact ⟨mk, heq⟩
      · exact ctx_enters hctx hρ hfresh' hx0 hag0 hm c hc
  rw [hlift]
  subst hpath
  generalize hpr : promote b x = pr at *
  obtain ⟨mk, x'⟩ := pr
  dsimp only at hx' hroutes hmk hbits ⊢
  have hslots : slots x' = slots x := by
    have := slots_promote b x
    rwa [hpr] at this
  have hchains : chains x' = chains x := by
    have := chains_promote b x
    rwa [hpr] at this
  have hsides : ∀ {m : Option Pair} (σ : Route),
      σ ∈ routes ((newpair ρ.pair mk ρ.key b x').lefts [⟨ρ, m⟩] ++ (newpair ρ.pair mk ρ.key b x').rights [⟨ρ, m⟩]) ↔
        σ = ρ ∨ σ ∈ routes x.members := by
    intro m σ
    rw [← hroutes]
    simp only [mem_routes, mem_sides, or_and_right, exists_or, List.mem_singleton, exists_eq_left, newpair, eq_comm]
  have hdiv : ∀ m : Option Pair, Divides leafBits sh.n0 b ((newpair ρ.pair mk ρ.key b x').lefts [⟨ρ, m⟩])
      ((newpair ρ.pair mk ρ.key b x').rights [⟨ρ, m⟩]) := by
    intro m
    have hall : ∀ y ∈ (newpair ρ.pair mk ρ.key b x').lefts [⟨ρ, m⟩] ++ (newpair ρ.pair mk ρ.key b x').rights [⟨ρ, m⟩],
        Agree sh.n0 (leafBits y) (bitSet ρ.key) b := by
      intro y hy
      rcases mem_sides.1 hy with hy | hy
      · rw [List.mem_singleton] at hy
        subst hy
        exact fun _ _ _ => rfl
      · exact (hbits y hy).1
    refine ⟨fun y hy z hz => (hall y hy).trans (hall z hz).symm, ?_, ?_⟩
    · intro y hy
      cases hr : bitSet ρ.key b with
      | true =>
        simp only [newpair, Crumb.lefts, hr, if_true] at hy
        rw [(hbits y hy).2, hr]
        rfl
      | false =>
        simp only [newpair, Crumb.lefts, hr, Bool.false_eq_true, if_false, List.mem_singleton] at hy
        subst hy
        exact hr
    · intro y hy
      cases hr : bitSet ρ.key b with
      | true =>
        simp only [newpair, Crumb.rights, hr, if_true, List.mem_singleton] at hy
        subst hy
        exact hr
      | false =>
        simp only [newpair, Crumb.rights, hr, Bool.false_eq_true, if_false] at hy
        rw [(hbits y hy).2, hr]
        rfl
  refine ⟨holds_plug.2 ⟨?_, ?_⟩, ?_, ?_, ?_, hfresh⟩
  · rw [floor_mapPath]
    refine ⟨by simp, ?_, by simp, ?_⟩
    · intro y hy z hz
      rw [List.mem_singleton] at hy hz
      subst hy hz
      exact fun _ _ _ => rfl
    · intro y hy
      rw [List.mem_singleton] at hy
      subst hy
      exact markOk_markOf
  · refine ⟨by rw [floor_mapPath]; exact hfl, ?_, hx', ?_⟩
    · rw [floor_mapPath]
      refine ⟨hb0.le, hbN, hdiv _, ?_⟩
      refine (hmk.enterAt ρ.pair hρ hfreshx hagx).congr ?_
      intro σ
      rw [List.mem_cons]
      exact hsides σ
    · exact ctx_enter hctx hρ hfresh' hx0 hag0 fun σ => hsides σ
  · have hcs : cs ≠ [] := path_ne h.top hplug fun d l r hx => absurd (hbelow d sh.n0 l r hx) (by omega)
    rw [topBit_iff (mapPath_ne (List.cons_ne_nil _ _)), bits_mapPath]
    have htop := h.top
    rw [hplug, topBit_iff hcs] at htop
    rw [List.map_cons, List.getLast?_cons, htop]
    rfl
  · refine ((perm_plug _ _).map _).trans ?_
    rw [outside_mapPath, outside_cons, members_leaf, List.singleton_append, List.map_cons, List.map_append]
    refine List.Perm.cons ρ ?_
    change (routes x'.members ++ routes (outside cs)).Perm _
    rw [hroutes, hplug, ← routes_append]
    exact ((perm_plug cs x).map _).symm
  · rw [hplug]
    refine .placed ?_ ?_
    · refine (chains_plug _ _ _).trans ?_
      simp only [chains, buckets_leaf, List.map_cons, List.map_nil, beside_cons, List.map_append, List.singleton_append]
      refine List.Perm.cons _ ?_
      change (chains x' ++ _).Perm _
      rw [hchains]
      exact (chains_split cs x).symm
    · refine (slots_plug (slot_enterAt ρ) _ _).trans ?_
      simp only [slots, inner_leaf, List.map_nil, List.nil_append, around_cons, List.map_cons, List.map_append]
      refine List.Perm.cons _ ?_
      change (slots x' ++ _).Perm _
      rw [hslots]
      exact (slots_split cs x).symm

theorem enterRoute_spec {t' : Tree} (h : TreeOk sh t) (hρ : RouteOk sh ρ) (hv : KeyLen sh ρ.key)
    (he : enterRoute ρ t = some t') : Entered sh ρ t t' := by
  unfold enterRoute at he
  rcases rnInsert_cases h hv with ⟨cs, ch, hins, hs, hag⟩ |
      ⟨cs, b, x, hins, hplug, hb0, hbN, hfl, hbelow, hne, hxs, hno⟩
  · rw [hins] at he
    obtain ⟨ch', hjoin, rfl⟩ := Option.map_eq_some_iff.1 he
    exact entered_joined h hρ hs hag hjoin
  · rw [hins] at he
    dsimp only at he
    rw [Option.some.injEq] at he
    subst he
    exact entered_placed h hρ hplug hb0 hbN hfl hbelow hne hxs hno rfl

end Enter

end BsdKernel.Radix
