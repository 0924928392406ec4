import BsdKernel.Net.RadixDelete
import BsdKernel.Net.RadixMatch
/-!
# Runs of a routing table

A table starts as `rn_inithead` makes it and takes any sequence of `rn_addroute`
and `rn_delete` calls with contiguous masks. The routes installed are those that
a call to `rn_addroute` returned and no later `rn_delete` did. After every run
`rn_match` finds the most specific installed route that matches, unless it is
asked for the key of all ones, which it takes for the root leaf of ones
(`match_runs`).
-/

namespace BsdKernel.Radix
open Lib PTree

/-- A key as `rn_match` gets it. -/
structure Addr (sh : Shape) where
  bytes : Key
  len : KeyLen sh bytes

/-- What a call to `rn_addroute` or `rn_delete` names: a key and a mask, where the key has no bit outside the mask. -/
structure Dest (sh : Shape) where
  key : Key
  mask : Option (NetMask sh)
  len : KeyLen sh key
  masked : ∀ i, sh.off ≤ i → i < sh.vlen → byteAt key i &&& maskByte mask i = byteAt key i

variable {sh : Shape}

/-- The key and mask match the address. -/
def Dest.Matches (d : Dest sh) (v : Addr sh) : Prop :=
  ∀ i, sh.off ≤ i → i < sh.vlen → (byteAt v.bytes i ^^^ byteAt d.key i) &&& maskByte d.mask i = 0#8

/-- The length of the mask, and a host route beyond all masks. -/
def Dest.specificity (d : Dest sh) : Nat :=
  match d.mask with
  | none => sh.nbits + 1
  | some m => m.plen

/-- A call, with the pair of nodes the caller of `rn_addroute` hands in. -/
inductive Op (sh : Shape) where
  | add (n : Nat) (d : Dest sh)
  | delete (d : Dest sh)

/-- The table and the routes in it, each with its pair of nodes. -/
structure Table (sh : Shape) where
  head : Head
  installed : List (Nat × Dest sh)

def Table.init (sh : Shape) : Table sh := ⟨⟨rnInithead sh sh.n0, ⟨rnInithead sh 0, rnZeros sh, 0⟩⟩, []⟩

/-- One call; a pair that is in use is not handed in again. -/
def Table.step (s : Table sh) : Op sh → Option (Table sh)
  | .add n d =>
    if s.installed.any fun r => r.1 = n then some s
    else
      match rnAddroute sh d.key (d.mask.map (·.bytes)) (.user n) s.head with
      | (none, h) => some { s with head := h }
      | (some _, h) => some ⟨h, s.installed ++ [(n, d)]⟩
  | .delete d =>
    match rnDelete sh d.key (d.mask.map (·.bytes)) s.head with
    | none => none
    | some (none, h) => some { s with head := h }
    | some (some p, h) => some ⟨h, s.installed.filter fun r => Pair.user r.1 ≠ p⟩

/-- The table after some calls; `none` is a run on bad memory. -/
def Table.run (s : Table sh) : List (Op sh) → Option (Table sh)
  | [] => some s
  | op :: ops => (s.step op).bind fun s => s.run ops

/-! ## Keys and masks of the callers -/

theorem maskBit_eq (d : Dest sh) {b : Nat} (h0 : sh.n0 ≤ b) :
    byteBit (maskByte d.mask (b / 8)) (b % 8) = decide (b < d.specificity ∨ d.mask = none) := by
  unfold Dest.specificity
  cases hm : d.mask with
  | none => simp [maskByte, byteBit_ones (show b % 8 < 8 by omega)]
  | some m =>
    have hoff : sh.off ≤ b / 8 := by
      unfold Shape.n0 at h0
      omega
    rw [maskByte_some m hoff, byteBit_normalChars (by omega) (by omega)]
    simp only [reduceCtorEq, or_false]
    congr 1
    apply propext
    omega

/-- The callers' match is agreement up to the end of the mask. -/
theorem Dest.matches_iff (d : Dest sh) (v : Addr sh) :
    d.Matches v ↔ Agree sh.n0 (bitSet d.key) (bitSet v.bytes) (min d.specificity sh.nbits) := by
  have hspec : ∀ b, b < sh.nbits → (b < d.specificity ∨ d.mask = none ↔ b < min d.specificity sh.nbits) := by
    intro b hb
    unfold Dest.specificity
    cases d.mask with
    | none => simp; omega
    | some m => simp; omega
  constructor
  · intro h b h0 hb
    have hb' : b < sh.nbits := by omega
    have hz := congrArg (byteBit · (b % 8)) (h (b / 8) (by unfold Shape.n0 at h0; omega)
      (by unfold Shape.nbits at hb'; omega))
    simp only [byteBit_zero] at hz
    rw [byteBit_and _ _ (by omega), maskBit_eq d h0, decide_eq_true ((hspec b hb').2 hb), Bool.and_true,
      byteBit_xor _ _ (by omega)] at hz
    rw [bitSet_eq, bitSet_eq]
    simpa using (beq_iff_eq.1 (by simpa using hz)).symm
  · intro h i hi hiv
    apply byte_ext
    intro j hj
    rw [byteBit_zero, byteBit_and _ _ hj, byteBit_xor _ _ hj]
    have h0 : sh.n0 ≤ 8 * i + j := by
      unfold Shape.n0
      omega
    have hN : 8 * i + j < sh.nbits := by
      unfold Shape.nbits
      omega
    have hdiv : (8 * i + j) / 8 = i := by omega
    have hmod : (8 * i + j) % 8 = j := by omega
    have hmask := maskBit_eq d h0
    rw [hdiv, hmod] at hmask
    rw [hmask]
    by_cases hlt : 8 * i + j < min d.specificity sh.nbits
    · have hb := h _ h0 hlt
      rw [bitSet_eq, bitSet_eq, hdiv, hmod] at hb
      rw [hb]
      simp
    · rw [decide_eq_false ((hspec _ hN).not.2 hlt), Bool.and_false]

theorem Dest.zero_beyond (d : Dest sh) {m : NetMask sh} (hm : d.mask = some m) :
    ∀ b, m.plen ≤ b → b < sh.nbits → bitSet d.key b = false := by
  intro b hp hb
  have h0 : sh.n0 ≤ b := Nat.le_trans m.n0_le hp
  have hk := congrArg (byteBit · (b % 8)) (d.masked (b / 8) (by unfold Shape.n0 at h0; omega)
    (by unfold Shape.nbits at hb; omega))
  rw [byteBit_and _ _ (by omega), maskBit_eq d h0] at hk
  unfold Dest.specificity at hk
  rw [hm] at hk
  simp only [reduceCtorEq, or_false] at hk
  rw [decide_eq_false (by omega), Bool.and_false] at hk
  rw [bitSet_eq]
  exact hk.symm

/-! ## The invariant -/

/-- `ρ` is the leaf of the installed route `r`. -/
structure LeafOf (r : Nat × Dest sh) (ρ : Route) : Prop where
  pair : ρ.pair = .user r.1
  key : ρ.key = r.2.key
  root : ρ.root = false
  host : r.2.mask = none → ρ.mask = none
  net : ∀ m, r.2.mask = some m → Net sh m.plen ρ

variable {r : Nat × Dest sh} {ρ : Route} {s : Table sh}

theorem LeafOf.len_eq (h : LeafOf r ρ) : ρ.len sh = r.2.specificity := by
  unfold Dest.specificity
  cases hm : r.2.mask with
  | none => rw [Route.len, h.host hm, if_neg (by simp)]
  | some m => rw [(h.net m hm).len_eq]

theorem LeafOf.applies_iff (h : LeafOf r ρ) (v : Addr sh) : Applies sh v.bytes ρ ↔ r.2.Matches v := by
  rw [Dest.matches_iff, Applies, h.len_eq, h.key, h.root]
  simp

theorem LeafOf.routeOk (h : LeafOf r ρ) : RouteOk sh ρ := by
  cases hm : r.2.mask with
  | none => exact .host h.root (h.host hm)
  | some m => exact .net m.plen (h.net m hm)

structure TableOk (s : Table sh) : Prop where
  tree : TreeOk sh s.head.top
  masks : MasksOk sh s.head.masks
  stored : Stored (slots s.head.top) (chains s.head.top)
  leaf : ∀ r ∈ s.installed, ∃ ρ ∈ routes s.head.top.members, LeafOf r ρ
  installed : ∀ ρ ∈ routes s.head.top.members, ρ.root = false → ∃ r ∈ s.installed, LeafOf r ρ

theorem TableOk.withMasks (h : TableOk s) {masks : MaskHead} (hm : MasksOk sh masks) :
    TableOk { s with head := { s.head with masks := masks } } :=
  ⟨h.tree, hm, h.stored, h.leaf, h.installed⟩

theorem mem_pairs {t : Tree} {p : Pair} : p ∈ (chains t).flatten ↔ p ∈ t.members.map (·.route.pair) := by
  unfold chains
  rw [← List.map_flatten, flatten_buckets]

theorem TableOk.fresh (h : TableOk s) {n : Nat} (hn : ∀ r ∈ s.installed, r.1 ≠ n) :
    Pair.user n ∉ s.head.top.members.map (·.route.pair) := by
  intro hmem
  obtain ⟨x, hx, hpair⟩ := List.mem_map.1 hmem
  cases hroot : x.route.root with
  | false =>
    obtain ⟨r, hr, hl⟩ := h.installed x.route (mem_routes.2 ⟨x, hx, rfl⟩) hroot
    rw [hl.pair] at hpair
    cases hpair
    exact hn r hr rfl
  | true =>
    rcases h.tree.route x hx with hs | ⟨hf, -⟩ | ⟨p, hp⟩
    · rcases hs with hs | hs <;> rw [hs] at hpair <;> cases hpair
    · rw [hf] at hroot
      cases hroot
    · rw [hp.root] at hroot
      cases hroot

/-! ## Calls -/

theorem leafOf_host (n : Nat) (d : Dest sh) (hm : d.mask = none) : LeafOf (n, d) (newLeaf d.key (.user n) none) :=
  ⟨rfl, rfl, rfl, fun _ => rfl, fun m hm' => by rw [hm] at hm'; cases hm'⟩

theorem leafOf_net (n : Nat) (d : Dest sh) {m : NetMask sh} (hm : d.mask = some m) {x : Route}
    (hx : Stands sh m.plen x) : LeafOf (n, d) (newLeaf d.key (.user n) (some x)) := by
  refine ⟨rfl, rfl, rfl, fun hm' => ?_, fun m' hm' => ?_⟩
  · rw [hm] at hm'
    cases hm'
  · rw [hm, Option.some.injEq] at hm'
    subst hm'
    exact ⟨m.n0_le, m.plen_le, rfl, congrArg some hx.key, hx.b, hx.normal, d.zero_beyond hm⟩

/-- Entering the leaf of a route keeps the table right. -/
theorem addLeaf_spec (h : TableOk s) {n : Nat} {d : Dest sh} (hn : ∀ r ∈ s.installed, r.1 ≠ n) (hρ : LeafOf (n, d) ρ) :
    match addLeaf ρ s.head with
    | (none, hd) => TableOk { s with head := hd }
    | (some _, hd) => TableOk ⟨hd, s.installed ++ [(n, d)]⟩ := by
  unfold addLeaf
  cases he : enterRoute ρ s.head.top with
  | none => exact h
  | some t' =>
    dsimp only
    have hv : KeyLen sh ρ.key := by
      rw [hρ.key]
      exact d.len
    have hent := enterRoute_spec h.tree hρ.routeOk hv he
    have hnew : ρ.pair ∉ s.head.top.members.map (·.route.pair) := by
      rw [hρ.pair]
      exact h.fresh hn
    have htree := h.tree.grow hρ.routeOk hnew hent.holds hent.top hent.routes
    have hmem : ∀ σ, σ ∈ routes t'.members ↔ σ = ρ ∨ σ ∈ routes s.head.top.members :=
      fun σ => by rw [hent.routes.mem_iff, List.mem_cons]
    refine ⟨htree, h.masks, ?_, ?_, ?_⟩
    · refine hent.grown.stored h.stored (fun hp => hnew (mem_pairs.1 hp)) ?_ ?_
      · rw [hρ.pair]
        simp
      · rw [hρ.pair]
        simp
    · intro r hr
      rcases List.mem_append.1 hr with hr | hr
      · obtain ⟨σ, hσ, hl⟩ := h.leaf r hr
        exact ⟨σ, (hmem σ).2 (.inr hσ), hl⟩
      · rw [List.mem_singleton.1 hr]
        exact ⟨ρ, (hmem ρ).2 (.inl rfl), hρ⟩
    · intro σ hσ hroot
      rcases (hmem σ).1 hσ with rfl | hσ
      · exact ⟨(n, d), by simp, hρ⟩
      · obtain ⟨r, hr, hl⟩ := h.installed σ hσ hroot
        exact ⟨r, List.mem_append_left _ hr, hl⟩

/-- Taking a leaf out keeps the table right. -/
theorem deleteLeaf_ok (h : TableOk s) {v : Key} {cs : List Crumb} {ch : List Leaf} {tt : Leaf}
    (hs : rnSearch v s.head.top = (cs, ch)) (htt : tt ∈ ch) :
    ∃ r, deleteLeaf tt cs ch s.head = some r ∧
      match r with
      | (none, hd) => TableOk { s with head := hd }
      | (some p, hd) => TableOk ⟨hd, s.installed.filter fun r => Pair.user r.1 ≠ p⟩ := by
  have httm : tt ∈ s.head.top.members := by
    have := descend_subset (bitSet v) s.head.top [] tt
    change tt ∈ (rnSearch v s.head.top).2 → _ at this
    rw [hs] at this
    exact this htt
  have httr : tt.route ∈ routes s.head.top.members := mem_routes.2 ⟨tt, httm, rfl⟩
  have huser : tt.route.root = false → tt.route.pair ≠ .zeros ∧ tt.route.pair ≠ .ones := by
    intro hroot
    obtain ⟨r, -, hl⟩ := h.installed _ httr hroot
    rw [hl.pair]
    simp
  rcases deleteLeaf_spec h.tree h.stored hs htt huser with ⟨-, he⟩ | ⟨hroot, t', he, hleft⟩
  · exact ⟨_, he, h⟩
  · refine ⟨_, he, ?_⟩
    dsimp only
    have hnd : (tt.route :: routes t'.members).map (·.pair) |>.Nodup := by
      refine (hleft.routes.map (·.pair)).nodup_iff.2 ?_
      have := h.tree.pairs
      rwa [routes, List.map_map]
    rw [List.map_cons, List.nodup_cons] at hnd
    refine ⟨h.tree.shrink hroot hleft.holds hleft.top hleft.routes, h.masks, hleft.stored, ?_, ?_⟩
    · intro r hr
      obtain ⟨hr, hne⟩ := List.mem_filter.1 hr
      obtain ⟨σ, hσ, hl⟩ := h.leaf r hr
      refine ⟨σ, ?_, hl⟩
      rcases List.mem_cons.1 (hleft.routes.mem_iff.2 hσ) with rfl | hσ
      · simp [hl.pair] at hne
      · exact hσ
    · intro σ hσ hσr
      obtain ⟨r, hr, hl⟩ := h.installed σ (hleft.routes.mem_iff.1 (List.mem_cons_of_mem _ hσ)) hσr
      refine ⟨r, List.mem_filter.2 ⟨hr, ?_⟩, hl⟩
      rw [decide_eq_true_eq]
      intro hp
      rw [← hl.pair] at hp
      exact hnd.1 (List.mem_map.2 ⟨σ, hσ, hp⟩)

/-- `rn_delete` returns and keeps the table right. -/
theorem rnDelete_ok (h : TableOk s) (d : Dest sh) :
    ∃ r, rnDelete sh d.key (d.mask.map (·.bytes)) s.head = some r ∧
      match r with
      | (none, hd) => TableOk { s with head := hd }
      | (some p, hd) => TableOk ⟨hd, s.installed.filter fun r => Pair.user r.1 ≠ p⟩ := by
  obtain ⟨cs, x, xs, hs, -, -, -⟩ := h.tree.found d.key
  unfold rnDelete
  rw [hs, h.tree.headOff]
  dsimp only
  by_cases hd : (diffByte d.key (chainKey (x :: xs)) sh.off ((byteAt d.key 0).toNat - sh.off)).isSome = true
  · rw [if_pos hd]
    exact ⟨_, rfl, h⟩
  · rw [if_neg hd]
    cases hm : d.mask with
    | none => exact deleteLeaf_ok h hs List.mem_cons_self
    | some m =>
      rw [Option.map_some]
      dsimp only
      obtain ⟨hmasks, -, -⟩ := rnAddmask_spec h.masks m true
      generalize rnAddmask sh m.bytes true sh.off s.head.masks = found at hmasks
      obtain ⟨_ | y, masks⟩ := found
      · exact ⟨_, rfl, h.withMasks hmasks⟩
      · dsimp only
        cases hf : (x :: xs).find? fun tt => tt.route.mask = some y.key with
        | none => exact ⟨_, rfl, h.withMasks hmasks⟩
        | some tt => exact deleteLeaf_ok (h.withMasks hmasks) hs (List.mem_of_find?_eq_some hf)

/-- Every call returns and keeps the table right. -/
theorem step_ok (h : TableOk s) (op : Op sh) : ∃ s', s.step op = some s' ∧ TableOk s' := by
  cases op with
  | add n d =>
    rw [Table.step]
    split
    · exact ⟨s, rfl, h⟩
    · next hin =>
      have hn : ∀ r ∈ s.installed, r.1 ≠ n := by
        intro r hr he
        exact hin (List.any_eq_true.2 ⟨r, hr, by simpa using he⟩)
      unfold rnAddroute
      cases hm : d.mask with
      | none =>
        rw [Option.map_none]
        dsimp only
        have hspec := addLeaf_spec h hn (leafOf_host n d hm)
        generalize addLeaf (newLeaf d.key (.user n) none) s.head = res at hspec
        obtain ⟨_ | p, hd⟩ := res
        · exact ⟨_, rfl, hspec⟩
        · exact ⟨_, rfl, hspec⟩
      | some m =>
        rw [Option.map_some, h.tree.headOff]
        dsimp only
        obtain ⟨hmasks, hsome, hstands⟩ := rnAddmask_spec h.masks m false
        generalize rnAddmask sh m.bytes false sh.off s.head.masks = found at hmasks hsome hstands
        obtain ⟨_ | x, masks⟩ := found
        · exact absurd (hsome rfl) (by simp)
        · dsimp only
          have hspec := addLeaf_spec (h.withMasks hmasks) hn (leafOf_net n d hm (hstands x rfl))
          dsimp only at hspec
          generalize addLeaf (newLeaf d.key (.user n) (some x)) { s.head with masks := masks } = res at hspec
          obtain ⟨_ | p, hd⟩ := res
          · exact ⟨_, rfl, hspec⟩
          · exact ⟨_, rfl, hspec⟩
  | delete d =>
    obtain ⟨res, he, hspec⟩ := rnDelete_ok h d
    rw [Table.step, he]
    obtain ⟨_ | p, hd⟩ := res
    · exact ⟨_, rfl, hspec⟩
    · exact ⟨_, rfl, hspec⟩

theorem run_ok (h : TableOk s) (ops : List (Op sh)) : ∃ s', s.run ops = some s' ∧ TableOk s' := by
  induction ops generalizing s with
  | nil => exact ⟨s, rfl, h⟩
  | cons op ops ih =>
    obtain ⟨s1, he, h1⟩ := step_ok h op
    obtain ⟨s2, he2, h2⟩ := ih h1
    exact ⟨s2, by rw [Table.run, he]; exact he2, h2⟩

/-! ## The empty table -/

theorem not_net_zeros (p : Nat) : ¬Net sh p (zerosLeaf sh sh.n0) := by
  intro h
  have := h.mask
  cases this

theorem not_net_ones (p : Nat) : ¬Net sh p (onesLeaf sh sh.n0) := by
  intro h
  have := h.mask
  cases this

theorem chainOk_root (h : ∀ p, ¬Net sh p ρ) (lo : Nat) : ChainOk sh lo [⟨ρ, none⟩] := by
  refine ⟨by simp, ?_, by simp, ?_⟩
  · intro x hx y hy
    rw [List.mem_singleton.1 hx, List.mem_singleton.1 hy]
    exact fun _ _ _ => rfl
  · intro x hx
    rw [List.mem_singleton.1 hx]
    exact ⟨fun _ => rfl, fun p hp => absurd hp (h p)⟩

theorem treeOk_init : TreeOk sh (rnInithead sh sh.n0) := by
  have hmem : ∀ x ∈ (rnInithead sh sh.n0).members, x.route = zerosLeaf sh sh.n0 ∨ x.route = onesLeaf sh sh.n0 := by
    intro x hx
    rcases List.mem_cons.1 hx with rfl | hx
    · exact .inl rfl
    · rw [List.mem_singleton.1 hx]
      exact .inr rfl
  refine ⟨⟨Nat.zero_le _, ⟨Nat.le_refl _, sh.n0_lt, ⟨?_, ?_, ?_⟩, ⟨?_, by simp⟩⟩, chainOk_root not_net_zeros _,
    chainOk_root not_net_ones _⟩, ⟨_, _, _, rfl⟩, fun x hx => .sentinel (hmem x hx), ?_, by simp [rnInithead, routes],
    by simp [rnInithead, routes]⟩
  · intro x _ y _ j h0 hj
    omega
  · intro x hx
    rw [List.mem_singleton.1 hx]
    exact bitSet_rnZeros sh _
  · intro x hx
    rw [List.mem_singleton.1 hx]
    exact bitSet_rnOnes sh.n0_lt
  · intro m
    simp only [List.not_mem_nil, false_iff]
    rintro ⟨ρ, hρ, ⟨p, hp, -, -⟩, -⟩
    obtain ⟨x, hx, rfl⟩ := mem_routes.1 hρ
    rcases hmem x hx with he | he
    · rw [he] at hp
      exact not_net_zeros p hp
    · rw [he] at hp
      exact not_net_ones p hp
  · simp [rnInithead, zerosLeaf, onesLeaf]

theorem stored_init : Stored (slots (rnInithead sh sh.n0)) (chains (rnInithead sh sh.n0)) := by
  change Stored [.zeros] [[.zeros], [.ones]]
  refine ⟨by simp, by simp, by simp, ?_, ?_⟩
  · intro ch _ _ q _ hq
    exact List.mem_singleton.1 hq
  · intro ch hch hroot
    exfalso
    rcases List.mem_cons.1 hch with rfl | hch
    · exact hroot (.inl (by simp))
    · rw [List.mem_singleton.1 hch] at hroot
      exact hroot (.inr (by simp))

theorem tableOk_init (sh : Shape) : TableOk (Table.init sh) := by
  refine ⟨treeOk_init, ⟨?_, fun i _ _ => byteAt_rnZeros sh i, ⟨_, _, _, rfl⟩⟩, stored_init, ?_, ?_⟩
  · intro x hx
    rcases List.mem_cons.1 hx with rfl | hx
    · exact .inl rfl
    · rw [List.mem_singleton.1 hx]
      exact .inr (.inl rfl)
  · intro r hr
    cases hr
  · intro ρ hρ hroot
    obtain ⟨x, hx, rfl⟩ := mem_routes.1 hρ
    rcases List.mem_cons.1 hx with rfl | hx
    · cases hroot
    · rw [List.mem_singleton.1 hx] at hroot
      cases hroot

/-! ## Lookups -/

/-- Every byte that counts is all ones. -/
def AllOnes (sh : Shape) (v : Key) : Prop := ∀ i, sh.off ≤ i → i < sh.vlen → byteAt v i = 0xff#8

/-- `r` is the most specific installed route that matches. -/
def Table.Longest (s : Table sh) (v : Addr sh) (r : Nat × Dest sh) : Prop :=
  r ∈ s.installed ∧ r.2.Matches v ∧ ∀ r' ∈ s.installed, r'.2.Matches v → r'.2.specificity ≤ r.2.specificity

/-- `rn_match` returns the leaf of the most specific installed route that matches, and that of no
installed route when none does. -/
structure Table.Found (s : Table sh) (v : Addr sh) : Prop where
  longest : (∃ r ∈ s.installed, r.2.Matches v) → ∃ r, s.Longest v r ∧ rnMatch v.bytes s.head.top = some (.user r.1)
  none : (∀ r ∈ s.installed, ¬r.2.Matches v) → ∀ r ∈ s.installed, rnMatch v.bytes s.head.top ≠ some (.user r.1)

theorem allOnes_iff {v : Key} : AllOnes sh v ↔ Agree sh.n0 (bitSet (rnOnes sh)) (bitSet v) sh.nbits := by
  have h1 := sh.vlen_le
  constructor
  · intro h
    refine agree_of_bytes fun j h0 hj => ?_
    rw [h j h0 hj, byteAt_rnOnes (by omega)]
  · intro h i h0 hi
    rw [← bytes_of_agree h i h0 hi, byteAt_rnOnes (by omega)]

/-- Asked for the key of all ones without a route to it, `rn_match` returns the root leaf. -/
theorem rnMatch_ones {t : Tree} {v : Key} (h : TreeOk sh t) (hv : KeyLen sh v)
    (hones : Agree sh.n0 (bitSet (rnOnes sh)) (bitSet v) sh.nbits)
    (hno : ∀ y ∈ t.members, y.route.root = false → ¬Agree sh.n0 (leafBits y) (bitSet v) sh.nbits) :
    rnMatch v t = some .ones := by
  obtain ⟨cs, x, xs, hs, hplug, hch, -⟩ := h.found v
  have hin : ∀ y ∈ x :: xs, y ∈ t.members := by
    intro y hy
    rw [hplug]
    exact mem_plug.2 (.inl hy)
  obtain ⟨o, ho, hor⟩ := mem_routes.1 h.ones
  have hochain : o ∈ x :: xs := by
    refine h.in_chain hs ho ?_
    unfold leafBits
    rw [hor]
    exact hones
  have hov : Agree sh.n0 (leafBits o) (bitSet v) sh.nbits := by
    unfold leafBits
    rw [hor]
    exact hones
  have hkeys : ∀ y ∈ x :: xs, Agree sh.n0 (leafBits y) (bitSet v) sh.nbits :=
    fun y hy => (hch.agree y hy o hochain).trans hov
  have hroot : ∀ y ∈ x :: xs, y.route.root = true := by
    intro y hy
    cases hr : y.route.root with
    | true => rfl
    | false => exact absurd (hkeys y hy) (hno y (hin y hy) hr)
  -- a leaf with a mask is not a root leaf, so the chain has one leaf
  have hxs : xs = [] := by
    cases xs with
    | nil => rfl
    | cons y ys =>
      exfalso
      have hm := ((List.pairwise_cons.1 hch.order).1 y List.mem_cons_self).1
      obtain ⟨p, hp⟩ := (h.route y (hin y (by simp))).net_of_mask hm
      have := hroot y (by simp)
      rw [hp.root] at this
      cases this
  subst hxs
  obtain rfl := List.mem_singleton.1 hochain
  have hd : diffByte v o.route.key sh.off (matchLen v o.route - sh.off) = none := by
    rw [matchLen_none (by rw [hor]; rfl) hv, diffByte_none]
    intro j h0 hj
    have h2 := sh.off_lt
    exact (bytes_of_agree hov j h0 (by omega)).symm
  unfold rnMatch
  rw [hs, h.headOff]
  dsimp only
  rw [hd]
  dsimp only
  rw [hor]
  rfl

/-- When exactly `rn_match` is right on a table. -/
theorem found_iff (h : TableOk s) (v : Addr sh) :
    s.Found v ↔ ¬(AllOnes sh v.bytes ∧ (∃ r ∈ s.installed, r.2.Matches v) ∧ ∀ r ∈ s.installed, ¬AllOnes sh r.2.key) := by
  constructor
  · rintro hf ⟨hones, hsome, hno⟩
    obtain ⟨r, -, he⟩ := hf.longest hsome
    rw [rnMatch_ones h.tree v.len (allOnes_iff.1 hones)] at he
    · cases he
    · intro y hy hyr hag
      obtain ⟨r', hr', hl⟩ := h.installed y.route (mem_routes.2 ⟨y, hy, rfl⟩) hyr
      refine hno r' hr' ?_
      rw [allOnes_iff, ← hl.key]
      exact (allOnes_iff.1 hones).trans hag.symm
  · intro hgood
    -- installed routes that match are the leaves that apply
    have happlies : ∀ r ∈ s.installed, r.2.Matches v → ∃ y ∈ s.head.top.members, LeafOf r y.route ∧
        Applies sh v.bytes y.route := by
      intro r hr hm
      obtain ⟨ρ, hρ, hl⟩ := h.leaf r hr
      obtain ⟨y, hy, rfl⟩ := mem_routes.1 hρ
      exact ⟨y, hy, hl, (hl.applies_iff v).2 hm⟩
    rcases rnMatch_spec h.tree v.len with ⟨p, he, x, hx, rfl, hxa, hmax⟩ | ⟨hnone, he⟩ | ⟨hones, hno, he⟩
    · obtain ⟨r, hr, hl⟩ := h.installed x.route (mem_routes.2 ⟨x, hx, rfl⟩) hxa.1
      have hrm := (hl.applies_iff v).1 hxa
      constructor
      · intro _
        refine ⟨r, ⟨hr, hrm, ?_⟩, by rw [he, hl.pair]⟩
        intro r' hr' hm'
        obtain ⟨y, hy, hl', hya⟩ := happlies r' hr' hm'
        rw [← hl'.len_eq, ← hl.len_eq]
        exact hmax y hy hya
      · intro hall
        exact absurd hrm (hall r hr)
    · constructor
      · rintro ⟨r, hr, hm⟩
        obtain ⟨y, hy, -, hya⟩ := happlies r hr hm
        exact absurd hya (hnone y hy)
      · intro _ r _ he'
        rcases he with he | he <;> rw [he] at he' <;> cases he'
    · constructor
      · intro hsome
        refine absurd ⟨allOnes_iff.2 hones, hsome, ?_⟩ hgood
        intro r hr hro
        obtain ⟨ρ, hρ, hl⟩ := h.leaf r hr
        obtain ⟨y, hy, rfl⟩ := mem_routes.1 hρ
        refine hno y hy hl.root ?_
        unfold leafBits
        rw [hl.key]
        exact (allOnes_iff.1 hro).symm.trans hones
      · intro _ r _ he'
        rw [he] at he'
        cases he'

/-- After every run `rn_match` is right, but for the key of all ones: there it is right only if no
installed route matches or one has that key. -/
theorem match_runs (sh : Shape) (ops : List (Op sh)) (v : Addr sh) :
    ∃ s, (Table.init sh).run ops = some s ∧
      (s.Found v ↔
        ¬(AllOnes sh v.bytes ∧ (∃ r ∈ s.installed, r.2.Matches v) ∧ ∀ r ∈ s.installed, ¬AllOnes sh r.2.key)) := by
  obtain ⟨s, he, hs⟩ := run_ok (tableOk_init sh) ops
  exact ⟨s, he, found_iff hs v⟩

/-- Keys of one byte behind their length. -/
def byteShape : Shape := ⟨1, 2, 2, by decide, by decide, by decide, by decide⟩

/-- The default route. -/
def defaultRoute : Dest byteShape where
  key := [2#8, 0#8]
  mask := some ⟨[0#8], 8, by decide, by decide, by
    intro b hb
    have : ¬b < 8 := Nat.not_lt.2 hb
    simp [byteAt, this]⟩
  len := rfl
  masked := by
    intro i h1 h2
    obtain rfl : i = 1 := by
      change 1 ≤ i at h1
      change i < 2 at h2
      omega
    rfl

/-- The default route matches the key of all ones, but `rn_match` returns the root leaf. -/
theorem match_runs_ones : ∃ s, (Table.init byteShape).run [.add 0 defaultRoute] = some s ∧
    ¬s.Found ⟨[2#8, 0xff#8], rfl⟩ := by
  refine ⟨_, rfl, ?_⟩
  intro h
  obtain ⟨r, -, he⟩ := h.longest ⟨(0, defaultRoute), List.mem_cons_self, by
    intro i _ _
    simp [defaultRoute, maskByte, byteAt]⟩
  have hones : rnMatch [2#8, 0xff#8] ((rnAddroute byteShape defaultRoute.key (defaultRoute.mask.map (·.bytes)) (.user 0)
      (Table.init byteShape).head).2).top = some .ones := by decide +kernel
  cases hones.symm.trans he

end BsdKernel.Radix
