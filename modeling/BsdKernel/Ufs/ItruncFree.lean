import BsdKernel.Ufs.ItruncSize
/-!
# What is freed when a file is truncated

The second half of `itrunc` of `ufs/ufs_inode.c`: the indirect blocks from the
triple one down, the direct blocks from the last one down, and the fragments at
the end of the last block that stays. The loops are followed on a state together
with the sectors counted so far.
-/

namespace BsdKernel.UfsTrunc

open BsdKernel.Lib BsdKernel.UfsBmap

variable {fs : Fs} {env : Env} {w w' : Work} {P : Nat → Nat → Nat} {ib : Nat → Nat} {α β : Type}
variable {Q : α → Work → Prop} {l n : Nat}

/-- The command ends without an error, as `Q` says. -/
def Ends (c : Cmd State Stop α) (w : Work) (Q : α → Work → Prop) : Prop :=
  ∃ a w', c w.toState = (.ok a, w'.toState) ∧ Q a w'

theorem Ends.bind {c : Cmd State Stop α} {f : α → Cmd State Stop β} {R : β → Work → Prop} (h : Ends c w Q)
    (hf : ∀ a w', Q a w' → Ends (f a) w' R) : Ends (c >>= f) w R := by
  obtain ⟨a, w', hc, hq⟩ := h
  obtain ⟨b, w'', hd, hr⟩ := hf a w' hq
  refine ⟨b, w'', ?_, hr⟩
  simp only [Bind.bind, Cmd.andThen, hc, hd]

theorem Ends.pure {a : α} (h : Q a w) : Ends (Pure.pure a) w Q := ⟨a, w, rfl, h⟩

theorem Ends.mono {c : Cmd State Stop α} {R : α → Work → Prop} (h : Ends c w Q) (hq : ∀ a w', Q a w' → R a w') :
    Ends c w R := by
  obtain ⟨a, w', hc, hqa⟩ := h
  exact ⟨a, w', hc, hq a w' hqa⟩

theorem ends_blkfree (bno size : Nat) (w : Work) : Ends (blkfree fs bno size) w fun _ w' => w' = release fs bno size w :=
  ⟨(), release fs bno size w, rfl, rfl⟩

/-! ## Indirect blocks -/

/-- The blocks below the indirect addresses are different ones. -/
def Forest (P : Nat → Nat → Nat) (ib : Nat → Nat) : Prop :=
  ∀ l l' q q', l < NIADDR → l' < NIADDR → q.length ≤ l + 1 → q'.length ≤ l' + 1 → node P (ib l) q ≠ 0 →
    node P (ib l) q = node P (ib l') q' → l = l' ∧ q = q'

theorem Forest.tree (h : Forest P ib) (hl : l < NIADDR) (hne : ib l ≠ 0) : Tree P l (ib l) where
  root := hne
  inj q q' hq hq' hnode heq := (h l l q q' hl hl hq hq' hnode heq).2

theorem node_zero (P : Nat → Nat → Nat) (q : List Nat) : node P 0 q = 0 := by
  simpa using node_append_zero (rfl : node P 0 [] = 0) q

theorem keeps_root {N : Nat} {lastbn : Int} : Keeps N l lastbn [] ↔ 0 ≤ lastbn := by
  simp [Keeps, firstBelow, idx]

/-- What is left of the blocks at and below the indirect address `b`, and what is freed. -/
structure LevelPruned (fs : Fs) (P : Nat → Nat → Nat) (l b : Nat) (lastbn : Int) (w w' : Work) : Prop where
  frame : ∀ c, (∀ q : List Nat, q.length ≤ l → node P b q ≠ 0 → node P b q ≠ c) → w'.ptrs c = w.ptrs c
  kept : ∀ q : List Nat, q.length ≤ l → node P b q ≠ 0 → Keeps fs.NINDIR l lastbn q →
    ∀ i, w'.ptrs (node P b q) i = if Keeps fs.NINDIR l lastbn (i :: q) then P (node P b q) i else 0
  freed : Frees fs (fun e => ∃ q : List Nat, q.length ≤ l + 1 ∧ node P b q ≠ 0 ∧ ¬Keeps fs.NINDIR l lastbn q ∧
    e = (node P b q, fs.bsize)) w w'

theorem truncLevel_ends (hread : Reads env) (hrange : ∀ a i, fs.NINDIR ≤ i → P a i = 0) (hforest : Forest P ib)
    (hl : l < NIADDR) {lastbn : Int} (hlast : -1 ≤ lastbn) {tip : Inode} (htip : tip.ib l = ib l)
    (hi : Intact P (l + 1) (ib l) w) :
    Ends (truncLevel fs env lastbn l tip) w fun r w' =>
      r.1 = { tip with ib := fun k => if k = l ∧ lastbn < 0 then 0 else tip.ib k } ∧ r.2.error = none ∧
        w'.released = w.released + r.2.count ∧ LevelPruned fs P l (ib l) lastbn w w' := by
  unfold truncLevel
  dsimp only
  rw [htip]
  by_cases hb : ib l = 0
  · rw [if_pos hb, hb]
    refine Ends.pure ⟨?_, rfl, rfl, ?_, ?_, ?_⟩
    · have hib : (fun k => if k = l ∧ lastbn < 0 then 0 else tip.ib k) = tip.ib := by
        funext k
        split_ifs with hk
        · rw [hk.1, htip, hb]
        · rfl
      rw [hib]
    · exact fun _ _ => rfl
    · exact fun q _ hne => absurd (node_zero P q) hne
    · refine (Frees.refl w).congr fun e => ⟨False.elim, ?_⟩
      rintro ⟨q, -, hne, -⟩
      exact hne (node_zero P q)
  · rw [if_neg hb]
    have ht := hforest.tree hl hb
    obtain ⟨n, hn, hcount⟩ := indirtrunc_releases fs hread.1 l (ib l) lastbn w
    have hp := truncBelow_prunes hrange ht hi hlast
    generalize truncBelow fs l (ib l) lastbn w = w₁ at hn hcount hp
    refine Ends.bind (Q := fun r w' => r = ⟨n, none⟩ ∧ w' = w₁) ⟨_, w₁, hn, rfl, rfl⟩ ?_
    rintro r w' ⟨rfl, rfl⟩
    by_cases hneg : lastbn < 0
    · rw [if_pos hneg]
      refine (ends_blkfree (ib l) fs.bsize w').bind ?_
      rintro u w'' rfl
      refine Ends.pure ⟨?_, rfl, ?_, fun c hc => ?_, fun q _ _ hkeep => ?_, ?_⟩
      · have hib : Function.update tip.ib l 0 = fun k => if k = l ∧ lastbn < 0 then 0 else tip.ib k := by
          funext k
          by_cases hk : k = l
          · simp [hk, hneg]
          · simp [hk]
        rw [hib]
      · simp only [release, Released.add, hcount, Nat.add_assoc]
      · exact hp.frame c hc
      · have hpos : (firstBelow fs.NINDIR l q : Int) ≤ lastbn := hkeep
        omega
      · have hself : ∀ e e', (∃ q : List Nat, q ≠ [] ∧ q.length ≤ l + 1 ∧ node P (ib l) q ≠ 0 ∧ ¬Keeps fs.NINDIR l lastbn q ∧
            e = (node P (ib l) q, fs.bsize)) → e' = (ib l, fs.bsize) → e.1 ≠ e'.1 := by
          rintro _ _ ⟨q, hnil, hq, hnode, -, rfl⟩ rfl heq
          exact hnil (ht.inj q [] hq (Nat.zero_le _) hnode heq)
        refine (hp.freed.trans (frees_release (ib l) fs.bsize w') hself).congr fun e => ?_
        constructor
        · rintro (⟨q, -, hq, hnode, hkeep, rfl⟩ | rfl)
          · exact ⟨q, hq, hnode, hkeep, rfl⟩
          · exact ⟨[], Nat.zero_le _, hb, by rw [keeps_root]; omega, rfl⟩
        · rintro ⟨q, hq, hnode, hkeep, rfl⟩
          by_cases hnil : q = []
          · subst hnil
            exact .inr rfl
          · exact .inl ⟨q, hnil, hq, hnode, hkeep, rfl⟩
    · rw [if_neg hneg]
      refine Ends.pure ⟨?_, rfl, hcount, hp.frame, fun q hq hnode hkeep => hp.kept q hq hnode (.inr hkeep), ?_⟩
      · simp [hneg]
      · refine hp.freed.congr fun e => ?_
        constructor
        · rintro ⟨q, -, hq, hnode, hkeep, rfl⟩
          exact ⟨q, hq, hnode, hkeep, rfl⟩
        · rintro ⟨q, hq, hnode, hkeep, rfl⟩
          refine ⟨q, ?_, hq, hnode, hkeep, rfl⟩
          rintro rfl
          rw [keeps_root] at hkeep
          omega

/-- What is left of the blocks at and below the first `n` indirect addresses, and what is freed. -/
structure ForestPruned (fs : Fs) (P : Nat → Nat → Nat) (ib : Nat → Nat) (lastiblock : Nat → Int) (n : Nat) (w w' : Work) :
    Prop where
  frame : ∀ c, (∀ l < n, ∀ q : List Nat, q.length ≤ l → node P (ib l) q ≠ 0 → node P (ib l) q ≠ c) → w'.ptrs c = w.ptrs c
  kept : ∀ l < n, ∀ q : List Nat, q.length ≤ l → node P (ib l) q ≠ 0 → Keeps fs.NINDIR l (lastiblock l) q →
    ∀ i, w'.ptrs (node P (ib l) q) i = if Keeps fs.NINDIR l (lastiblock l) (i :: q) then P (node P (ib l) q) i else 0
  freed : Frees fs (fun e => ∃ l < n, ∃ q : List Nat, q.length ≤ l + 1 ∧ node P (ib l) q ≠ 0 ∧
    ¬Keeps fs.NINDIR l (lastiblock l) q ∧ e = (node P (ib l) q, fs.bsize)) w w'

section Levels
variable {lastiblock : Nat → Int}

theorem keeps_whole (hrange : ∀ a i, fs.NINDIR ≤ i → P a i = 0) {b : Nat}
    (hwhole : ((fs.NINDIR ^ (l + 1) : Nat) : Int) ≤ lastiblock l + 1) {q : List Nat} (hq : q.length ≤ l + 1)
    (hnode : node P b q ≠ 0) : Keeps fs.NINDIR l (lastiblock l) q := by
  have := firstBelow_lt (digits_of_node hrange hnode) fs.NINDIR_pos hq
  unfold Keeps
  omega

theorem forestPruned_whole (hrange : ∀ a i, fs.NINDIR ≤ i → P a i = 0) (hi : ∀ l < n, Intact P (l + 1) (ib l) w)
    (hwhole : ∀ l < n, ((fs.NINDIR ^ (l + 1) : Nat) : Int) ≤ lastiblock l + 1) :
    ForestPruned fs P ib lastiblock n w w where
  frame _ _ := rfl
  kept l hl q hq hnode _ i := by
    rw [hi l hl q (by omega) hnode]
    split_ifs with hkeep
    · rfl
    · by_contra hne
      have hchild : node P (ib l) (i :: q) ≠ 0 := by rwa [node_cons hnode]
      exact hkeep (keeps_whole hrange (hwhole l hl) (by simp only [List.length_cons]; omega) hchild)
  freed := (Frees.refl w).congr fun e => by
    constructor
    · exact False.elim
    · rintro ⟨l, hl, q, hq, hnode, hkeep, -⟩
      exact hkeep (keeps_whole hrange (hwhole l hl) hq hnode)

theorem LevelPruned.intact (hforest : Forest P ib) (hl : l < n) (hn : n < NIADDR)
    (hp : LevelPruned fs P n (ib n) (lastiblock n) w w') (hi : Intact P (l + 1) (ib l) w) :
    Intact P (l + 1) (ib l) w' := by
  apply hi.of_frame
  intro q hq hnode
  apply hp.frame
  intro q' hq' hnode' heq
  have := (hforest n l q' q hn (by omega) (by omega) (by omega) hnode' heq).1
  omega

/-- One level, and the levels below it. -/
theorem ForestPruned.level (hforest : Forest P ib) (hn : n < NIADDR) {w₁ : Work}
    (hp : LevelPruned fs P n (ib n) (lastiblock n) w w₁) (hr : ForestPruned fs P ib lastiblock n w₁ w') :
    ForestPruned fs P ib lastiblock (n + 1) w w' where
  frame c hc := by
    rw [hr.frame c fun l hl => hc l (by omega)]
    exact hp.frame c (hc n (by omega))
  kept l hl q hq hnode hkeep i := by
    rcases Nat.lt_succ_iff_lt_or_eq.1 hl with hlt | rfl
    · exact hr.kept l hlt q hq hnode hkeep i
    · have hother : w'.ptrs (node P (ib l) q) = w₁.ptrs (node P (ib l) q) := by
        apply hr.frame
        intro l' hl' q' hq' hnode' heq
        have := (hforest l' l q' q (by omega) hn (by omega) (by omega) hnode' heq).1
        omega
      rw [hother]
      exact hp.kept q hq hnode hkeep i
  freed := by
    refine (hp.freed.trans hr.freed ?_).congr fun e => ?_
    · rintro _ _ ⟨q, hq, hnode, -, rfl⟩ ⟨l, hl, q', hq', -, -, rfl⟩ heq
      have := (hforest n l q q' hn (by omega) hq hq' hnode heq).1
      omega
    · constructor
      · rintro (⟨q, hq, hnode, hkeep, rfl⟩ | ⟨l, hl, q, hq, hnode, hkeep, rfl⟩)
        · exact ⟨n, by omega, q, hq, hnode, hkeep, rfl⟩
        · exact ⟨l, by omega, q, hq, hnode, hkeep, rfl⟩
      · rintro ⟨l, hl, q, hq, hnode, hkeep, rfl⟩
        rcases Nat.lt_succ_iff_lt_or_eq.1 hl with hlt | rfl
        · exact .inr ⟨l, hlt, q, hq, hnode, hkeep, rfl⟩
        · exact .inl ⟨q, hq, hnode, hkeep, rfl⟩

/-- The three levels of indirection, from `n - 1` down. -/
theorem truncIndirect_ends (hread : Reads env) (hrange : ∀ a i, fs.NINDIR ≤ i → P a i = 0) (hforest : Forest P ib)
    (hlast : ∀ l, -1 ≤ lastiblock l)
    (hwhole : ∀ l l', l < l' → l' < NIADDR → 0 ≤ lastiblock l' → ((fs.NINDIR ^ (l + 1) : Nat) : Int) ≤ lastiblock l + 1)
    (n : Nat) : n ≤ NIADDR → ∀ (tip : Inode) (w : Work), (∀ l < n, tip.ib l = ib l) → (∀ l < n, Intact P (l + 1) (ib l) w) →
      Ends (truncIndirect fs env lastiblock n tip) w fun r w' =>
        (r.1 = true ↔ ∀ l < n, lastiblock l < 0) ∧
          r.2.1 = { tip with ib := fun l => if l < n ∧ lastiblock l < 0 then 0 else tip.ib l } ∧ r.2.2.error = none ∧
          w'.released = w.released + r.2.2.count ∧ ForestPruned fs P ib lastiblock n w w' := by
  induction n with
  | zero =>
    intro _ tip w _ hi
    rw [truncIndirect]
    exact Ends.pure ⟨by simp, by simp, rfl, rfl, forestPruned_whole hrange hi fun l hl => absurd hl (Nat.not_lt_zero l)⟩
  | succ n ih =>
    intro hn tip w htip hi
    rw [truncIndirect]
    refine (truncLevel_ends hread hrange hforest (by omega) (hlast n) (htip n (by omega)) (hi n (by omega))).bind ?_
    rintro ⟨tip', r⟩ w₁ ⟨rfl, herror, hcount, hp⟩
    have hrest : ∀ l < n, Intact P (l + 1) (ib l) w₁ := fun l hl => hp.intact hforest hl (by omega) (hi l (by omega))
    by_cases hge : lastiblock n ≥ 0
    · rw [if_pos hge]
      have hbelow : ∀ l < n, ((fs.NINDIR ^ (l + 1) : Nat) : Int) ≤ lastiblock l + 1 := fun l hl => hwhole l n hl (by omega) hge
      refine Ends.pure ⟨?_, ?_, herror, hcount, ForestPruned.level hforest (by omega) hp (forestPruned_whole hrange hrest hbelow)⟩
      · simp only [Bool.false_eq_true, false_iff, not_forall]
        exact ⟨n, by omega, by omega⟩
      · dsimp only
        congr 1
        funext k
        have hpos := Nat.pow_pos (n := k + 1) fs.NINDIR_pos
        rcases Nat.lt_trichotomy k n with hlt | rfl | hgt
        · have := hbelow k hlt
          rw [if_neg (by omega), if_neg (by omega)]
        · rw [if_neg (by omega), if_neg (by omega)]
        · rw [if_neg (by omega), if_neg (by omega)]
    · rw [if_neg hge]
      have htip' : ∀ l < n, (if l = n ∧ lastiblock n < 0 then 0 else tip.ib l) = ib l := by
        intro l hl
        rw [if_neg (by omega), htip l (by omega)]
      refine (ih (by omega) { tip with ib := fun k => if k = n ∧ lastiblock n < 0 then 0 else tip.ib k } w₁ htip' hrest).bind ?_
      rintro ⟨all, tip', r'⟩ w₂ ⟨hall, rfl, herror', hcount', hp'⟩
      refine Ends.pure ⟨?_, ?_, ?_, ?_, ForestPruned.level hforest (by omega) hp hp'⟩
      · rw [hall]
        constructor
        · intro h l hl
          rcases Nat.lt_succ_iff_lt_or_eq.1 hl with hlt | rfl
          · exact h l hlt
          · omega
        · exact fun h l hl => h l (by omega)
      · dsimp only
        congr 1
        funext k
        rcases Nat.lt_trichotomy k n with hlt | rfl | hgt
        · simp only [hlt, Nat.lt_succ_of_lt hlt, true_and, hlt.ne, false_and, if_false]
        · simp only [lt_irrefl, false_and, if_false, Nat.lt_succ_self, true_and]
        · rw [if_neg (by omega), if_neg (by omega), if_neg (by omega)]
      · simp only at herror herror'
        simp [Released.add, herror, herror']
      · simp only at hcount hcount'
        simp only [Released.add]
        omega

end Levels

/-! ## Direct blocks -/

/-- The direct blocks after `lastblock`, from `n - 1` down. -/
theorem truncDirect_ends (lastblock : Int) (n : Nat) : ∀ (tip : Inode) (w : Work),
    (∀ i j, i < n → j < n → tip.db i ≠ 0 → tip.db i = tip.db j → i = j) →
      Ends (truncDirect fs lastblock n tip) w fun r w' =>
        r.1 = { tip with db := fun i => if i < n ∧ lastblock < (i : Int) then 0 else tip.db i } ∧
          w'.released = w.released + r.2 ∧ w'.ptrs = w.ptrs ∧
          Frees fs (fun e => ∃ i < n, lastblock < ((i : Nat) : Int) ∧ tip.db i ≠ 0 ∧ e = (tip.db i, blksize fs tip i)) w w' := by
  induction n with
  | zero =>
    intro tip w _
    rw [truncDirect]
    exact Ends.pure ⟨by simp, rfl, rfl, (Frees.refl w).congr fun e => by simp⟩
  | succ n ih =>
    intro tip w hinj
    rw [truncDirect]
    by_cases hlast : lastblock < (n : Int)
    · rw [if_pos hlast]
      dsimp only
      by_cases hb : tip.db n = 0
      · rw [if_pos hb]
        refine (ih tip w fun i j hi hj => hinj i j (by omega) (by omega)).mono ?_
        rintro ⟨tip', m⟩ w' ⟨rfl, hcount, hptrs, hfreed⟩
        refine ⟨?_, hcount, hptrs, hfreed.congr fun e => ?_⟩
        · dsimp only
          congr 1
          funext i
          rcases Nat.lt_trichotomy i n with hlt | rfl | hgt
          · simp only [hlt, Nat.lt_succ_of_lt hlt]
          · simp [hb]
          · rw [if_neg (by omega), if_neg (by omega)]
        · constructor
          · rintro ⟨i, hi, hrest⟩
            exact ⟨i, by omega, hrest⟩
          · rintro ⟨i, hi, hli, hne, rfl⟩
            rcases Nat.lt_succ_iff_lt_or_eq.1 hi with hlt | rfl
            · exact ⟨i, hlt, hli, hne, rfl⟩
            · exact absurd hb hne
      · rw [if_neg hb]
        refine (ends_blkfree (tip.db n) _ w).bind ?_
        rintro u w₁ rfl
        have hother : ∀ i < n, Function.update tip.db n 0 i = tip.db i := fun i hi => Function.update_of_ne (by omega) _ _
        have hinj' : ∀ i j, i < n → j < n → Function.update tip.db n 0 i ≠ 0 →
            Function.update tip.db n 0 i = Function.update tip.db n 0 j → i = j := by
          intro i j hi hj hne heq
          rw [hother i hi] at hne heq
          rw [hother j hj] at heq
          exact hinj i j (by omega) (by omega) hne heq
        refine (ih { tip with db := Function.update tip.db n 0 } _ hinj').bind ?_
        rintro ⟨tip', m⟩ w' ⟨rfl, hcount, hptrs, hfreed⟩
        refine Ends.pure ⟨?_, ?_, hptrs, ?_⟩
        · dsimp only
          congr 1
          funext i
          rcases Nat.lt_trichotomy i n with hlt | rfl | hgt
          · simp only [hlt, Nat.lt_succ_of_lt hlt, hother i hlt]
          · simp [hlast]
          · rw [if_neg (by omega), if_neg (by omega), Function.update_of_ne (by omega)]
        · simp only [release] at hcount
          dsimp only
          omega
        · refine ((frees_release (tip.db n) _ w).trans hfreed ?_).congr fun e => ?_
          · rintro _ _ rfl ⟨i, hi, -, hne, rfl⟩ heq
            simp only [hother i hi] at hne heq
            have := hinj n i (by omega) (by omega) hb heq
            omega
          · constructor
            · rintro (rfl | ⟨i, hi, hli, hne, rfl⟩)
              · exact ⟨n, by omega, hlast, hb, rfl⟩
              · simp only [hother i hi] at hne ⊢
                exact ⟨i, by omega, hli, hne, rfl⟩
            · rintro ⟨i, hi, hli, hne, rfl⟩
              rcases Nat.lt_succ_iff_lt_or_eq.1 hi with hlt | rfl
              · refine .inr ⟨i, hlt, hli, ?_, ?_⟩
                · simpa only [hother i hlt] using hne
                · simp only [hother i hlt]
                  rfl
              · exact .inl rfl
    · rw [if_neg hlast]
      refine Ends.pure ⟨?_, rfl, rfl, (Frees.refl w).congr fun e => ?_⟩
      · have hdb : (fun i => if i < n + 1 ∧ lastblock < ((i : Nat) : Int) then 0 else tip.db i) = tip.db := by
          funext i
          rw [if_neg (by omega)]
        rw [hdb]
      · constructor
        · exact False.elim
        · rintro ⟨i, hi, hli, -⟩
          omega

/-- The fragments behind the end of the last block. -/
def Tail (fs : Fs) (lastblock : Int) (length : Nat) (tip : Inode) (e : Nat × Nat) : Prop :=
  ∃ i : Nat, lastblock = i ∧ tip.db i ≠ 0 ∧ blksize fs ({ tip with size := length }) i < blksize fs tip i ∧
    e = (tip.db i + fs.numfrags (blksize fs ({ tip with size := length }) i), blksize fs tip i - blksize fs ({ tip with size := length }) i)

theorem truncLast_ends {lastblock : Int} {length : Nat} (hlast : ∀ i : Nat, lastblock = i → i * fs.bsize < length) (tip : Inode)
    (w : Work) :
    Ends (truncLast fs lastblock length tip) w fun n w' =>
      w'.released = w.released + n ∧ w'.ptrs = w.ptrs ∧ Frees fs (Tail fs lastblock length tip) w w' := by
  have hnone : ∀ w : Work, (∀ e, ¬Tail fs lastblock length tip e) → Frees fs (Tail fs lastblock length tip) w w :=
    fun w hno => (Frees.refl w).congr fun e => iff_of_false id (hno e)
  unfold truncLast
  dsimp only
  by_cases hin : 0 ≤ lastblock ∧ tip.db lastblock.toNat ≠ 0
  · obtain ⟨i, rfl⟩ := Int.eq_ofNat_of_zero_le hin.1
    rw [if_pos hin, Int.toNat_natCast]
    have hpos : fs.fsize ≤ blksize fs { tip with size := length } i := blksize_pos (hlast i rfl)
    have hfs := fs.fsize_pos
    rw [if_neg (by omega)]
    by_cases hshort : blksize fs tip i > blksize fs { tip with size := length } i
    · rw [if_pos hshort]
      refine (ends_blkfree _ _ w).bind ?_
      rintro u w' rfl
      refine Ends.pure ⟨rfl, rfl, (frees_release _ _ w).congr fun e => ?_⟩
      constructor
      · rintro rfl
        exact ⟨i, rfl, by simpa using hin.2, hshort, rfl⟩
      · rintro ⟨j, hj, -, -, rfl⟩
        obtain rfl : i = j := by omega
        rfl
    · rw [if_neg hshort]
      refine Ends.pure ⟨rfl, rfl, hnone w fun e => ?_⟩
      rintro ⟨j, hj, -, hlt, -⟩
      obtain rfl : i = j := by omega
      exact hshort hlt
  · rw [if_neg hin]
    refine Ends.pure ⟨rfl, rfl, hnone w fun e => ?_⟩
    rintro ⟨j, hj, hne, -⟩
    refine hin ⟨by omega, ?_⟩
    rwa [hj, Int.toNat_natCast]

end BsdKernel.UfsTrunc
