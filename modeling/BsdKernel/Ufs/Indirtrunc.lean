import BsdKernel.Ufs.BmapAlloc
/-!
# Indirect blocks of a file that is truncated

`indirtrunc` of `ufs/ufs_inode.c`, where all reads succeed: what it leaves in
the indirect blocks below one of them, the calls of `blkfree` it makes, and the
sectors it counts as released. `truncBelow` is what it does to the state then,
and `indirtrunc_releases` the connection.

`truncBelow_prunes` says that exactly the blocks behind the last one kept are
freed, each once, and that all others stay linked.
-/

namespace BsdKernel.UfsTrunc

open BsdKernel.Lib BsdKernel.UfsBmap

variable {i : Nat} {q : List Nat} {lastbn : Int}

/-- A state, and the sectors released so far. -/
structure Work extends State where
  released : Nat

variable (fs : Fs)

/-- A piece is freed and counted. -/
def release (bno size : Nat) (w : Work) : Work :=
  { w with
    held := w.held \ piece fs bno size
    freed := w.freed ++ [(bno, size)]
    released := w.released + btodb size }

/-- The entries of `bn` behind `last` are cleared. -/
def cut (bn : Nat) (last : Int) (w : Work) : Work where
  toState := cutPtrs bn last w.toState
  released := w.released

/-- The entries of `copy` with the indices `is` are freed, `sub` before each. -/
def freeAll (sub : Nat → Work → Work) (copy : Nat → Nat) (is : List Nat) (w : Work) : Work :=
  is.foldl (fun w i => if copy i = 0 then w else release fs (copy i) fs.bsize (sub (copy i) w)) w

/-- `indirtrunc`, where all reads succeed. -/
def truncBelow : Nat → Nat → Int → Work → Work
  | lvl, bn, lastbn, w =>
    let last := lastIndex fs lvl lastbn
    let copy := w.ptrs bn
    let w := cut bn last w
    match lvl with
    | 0 => freeAll fs (fun _ w => w) copy (behind fs last) w
    | lvl + 1 =>
      let w := freeAll fs (fun nb => truncBelow lvl nb (-1)) copy (behind fs last) w
      if lastbn ≥ 0 ∧ copy last.toNat ≠ 0 then truncBelow lvl (copy last.toNat) (lastbn % fs.NINDIR ^ (lvl + 1)) w
      else w

variable {fs} {env : Env} {w w' w'' : Work}

theorem cut_self (bn : Nat) (last : Int) (i : Nat) : (cut bn last w).ptrs bn i = if (i : Int) ≤ last then w.ptrs bn i else 0 := by
  simp [cut, cutPtrs]

theorem cut_toState (bn : Nat) (last : Int) : (cut bn last w).toState = cutPtrs bn last w.toState := rfl

theorem cut_released (bn : Nat) (last : Int) : (cut bn last w).released = w.released := rfl

theorem cut_of_ne {bn a : Nat} (h : a ≠ bn) (last : Int) : (cut bn last w).ptrs a = w.ptrs a := by
  simp [cut, cutPtrs, h]

/-! ## Without errors -/

/-- The command does to the state what `f` does, and returns what `f` adds to the count. -/
def Releases (c : Cmd State Stop Released) (f : Work → Work) : Prop :=
  ∀ w : Work, ∃ n, c w.toState = (.ok ⟨n, none⟩, (f w).toState) ∧ (f w).released = w.released + n

theorem releases_none : Releases (pure ⟨0, none⟩) fun w => w := fun _ => ⟨0, rfl, rfl⟩

theorem Releases.then {c d : Cmd State Stop Released} {f g : Work → Work} (hc : Releases c f) (hd : Releases d g) :
    Releases (do
      let r ← c
      let r' ← d
      return r.add r') fun w => g (f w) := by
  intro w
  obtain ⟨m, hm, hcount⟩ := hc w
  obtain ⟨n, hn, hcount'⟩ := hd (f w)
  refine ⟨m + n, ?_, ?_⟩
  · simp only [bind, Cmd.andThen, hm, hn]
    rfl
  · rw [hcount', hcount, Nat.add_assoc]

theorem freeEntry_releases {sub : Nat → Cmd State Stop Released} {f : Nat → Work → Work} (hsub : ∀ nb, Releases (sub nb) (f nb))
    (nb : Nat) :
    Releases (UfsBmap.freeEntry fs sub nb) fun w => if nb = 0 then w else release fs nb fs.bsize (f nb w) := by
  unfold UfsBmap.freeEntry
  by_cases hnb : nb = 0
  · simp only [hnb, if_true]
    exact releases_none
  · simp only [hnb, if_false]
    intro w
    obtain ⟨n, hn, hcount⟩ := hsub nb w
    refine ⟨n + btodb fs.bsize, ?_, ?_⟩
    · simp only [bind, Cmd.andThen, hn]
      rfl
    · simp only [release, hcount, Nat.add_assoc]

theorem freeEntries_releases (fs : Fs) {sub : Nat → Cmd State Stop Released} {f : Nat → Work → Work}
    (hsub : ∀ nb, Releases (sub nb) (f nb)) (copy : Nat → Nat) (is : List Nat) :
    Releases (UfsBmap.freeEntries fs sub copy is) (freeAll fs f copy is) := by
  induction is with
  | nil => exact releases_none
  | cons i is ih => exact (freeEntry_releases hsub (copy i)).then ih

/-- Without read errors, `indirtrunc` does what `truncBelow` says. -/
theorem indirtrunc_releases (fs : Fs) (hread : ∀ a, env.devread a = true) (lvl bn : Nat) (lastbn : Int) :
    Releases (indirtrunc fs env lvl bn lastbn) (truncBelow fs lvl bn lastbn) := by
  induction lvl generalizing bn lastbn with
  | zero =>
    intro w
    obtain ⟨n, hn, hcount⟩ := freeEntries_releases fs (fun _ => releases_none) (w.ptrs bn)
      (behind fs (lastIndex fs 0 lastbn)) (cut bn (lastIndex fs 0 lastbn) w)
    refine ⟨n, ?_, hcount⟩
    rw [indirtrunc]
    simp only [hread, if_true]
    exact hn
  | succ lvl ih =>
    intro w
    obtain ⟨n, hn, hcount⟩ := freeEntries_releases fs (fun nb => ih nb (-1)) (w.ptrs bn)
      (behind fs (lastIndex fs (lvl + 1) lastbn)) (cut bn (lastIndex fs (lvl + 1) lastbn) w)
    rw [cut_toState] at hn
    rw [cut_released] at hcount
    rw [indirtrunc, truncBelow]
    simp only [hread, if_true]
    by_cases hlast : lastbn ≥ 0 ∧ w.ptrs bn (lastIndex fs (lvl + 1) lastbn).toNat ≠ 0
    · obtain ⟨m, hm, hcount'⟩ := ih (w.ptrs bn (lastIndex fs (lvl + 1) lastbn).toNat) (lastbn % fs.NINDIR ^ (lvl + 1))
        (freeAll fs (fun nb => truncBelow fs lvl nb (-1)) (w.ptrs bn) (behind fs (lastIndex fs (lvl + 1) lastbn))
          (cut bn (lastIndex fs (lvl + 1) lastbn) w))
      rw [if_pos hlast]
      refine ⟨n + m, ?_, ?_⟩
      · simp only [bind, Cmd.andThen, Cmd.get, Cmd.modify, hn, if_pos hlast, hm]
        rfl
      · rw [hcount', hcount, Nat.add_assoc]
    · rw [if_neg hlast]
      refine ⟨n, ?_, hcount⟩
      simp only [bind, Cmd.andThen, Cmd.get, Cmd.modify, hn, if_neg hlast]
      rfl

/-! ## What is freed -/

/-- The fragments of the pieces in a log. -/
def pieces (fs : Fs) (log : List (Nat × Nat)) : Finset Nat := log.toFinset.biUnion fun e => piece fs e.1 e.2

/-- The sectors of the pieces in a log. -/
def sectors (log : List (Nat × Nat)) : Nat := (log.map fun e => btodb e.2).sum

/-- Between `w` and `w'` exactly the pieces in `S` were freed, no address twice, and counted; but for that only indirect
blocks have changed. -/
def Frees (fs : Fs) (S : Nat × Nat → Prop) (w w' : Work) : Prop :=
  ∃ log : List (Nat × Nat),
    w'.toState = { w.toState with ptrs := w'.ptrs, held := w.held \ pieces fs log, freed := w.freed ++ log } ∧
      (log.map Prod.fst).Nodup ∧ (∀ e, e ∈ log ↔ S e) ∧ w'.released = w.released + sectors log

theorem pieces_append (log log' : List (Nat × Nat)) : pieces fs (log ++ log') = pieces fs log ∪ pieces fs log' := by
  rw [pieces, List.toFinset_append, Finset.union_biUnion]
  rfl

theorem sectors_append (log log' : List (Nat × Nat)) : sectors (log ++ log') = sectors log + sectors log' := by
  simp [sectors]

theorem Frees.refl (w : Work) : Frees fs (fun _ => False) w w :=
  ⟨[], by simp [pieces], by simp, by simp, by simp [sectors]⟩

theorem Frees.congr {S T : Nat × Nat → Prop} (h : Frees fs S w w') (hst : ∀ e, S e ↔ T e) : Frees fs T w w' := by
  obtain ⟨log, h1, h2, h3, h4⟩ := h
  exact ⟨log, h1, h2, fun e => (h3 e).trans (hst e), h4⟩

theorem Frees.store {S : Nat × Nat → Prop} {bn : Nat} {last : Int}
    (h : Frees fs S (cut bn last w) w') : Frees fs S w w' := h

theorem frees_release (bno size : Nat) (w : Work) : Frees fs (fun e => e = (bno, size)) w (release fs bno size w) :=
  ⟨[(bno, size)], by simp [release, pieces], by simp, by simp, by simp [release, sectors]⟩

theorem Frees.trans {S T : Nat × Nat → Prop} (h : Frees fs S w w') (h' : Frees fs T w' w'')
    (hne : ∀ e e', S e → T e' → e.1 ≠ e'.1) : Frees fs (fun e => S e ∨ T e) w w'' := by
  obtain ⟨log, h1, h2, h3, h4⟩ := h
  obtain ⟨log', h1', h2', h3', h4'⟩ := h'
  refine ⟨log ++ log', ?_, ?_, fun e => ?_, ?_⟩
  · have hheld : w.held \ (pieces fs log ∪ pieces fs log') = (w.held \ pieces fs log) \ pieces fs log' := by
      rw [← Finset.sup_eq_union, sdiff_sdiff_left]
    rw [h1', h1, pieces_append, hheld]
    simp only [List.append_assoc]
  · rw [List.map_append, List.nodup_append]
    refine ⟨h2, h2', fun a ha b hb => ?_⟩
    obtain ⟨e, he, rfl⟩ := List.mem_map.1 ha
    obtain ⟨e', he', rfl⟩ := List.mem_map.1 hb
    exact hne e e' ((h3 e).1 he) ((h3' e').1 he')
  · rw [List.mem_append, h3, h3']
  · rw [h4', h4, sectors_append, Nat.add_assoc]

/-! ## Paths below a block -/

/-- The number that the indices of a path write to the base `N`, the first index being the lowest digit. -/
def idx (N : Nat) : List Nat → Nat
  | [] => 0
  | i :: p => i + N * idx N p

theorem idx_append (N : Nat) (q p : List Nat) : idx N (q ++ p) = idx N q + N ^ q.length * idx N p := by
  induction q with
  | nil => simp [idx]
  | cons i q ih =>
    simp only [List.cons_append, idx, ih, List.length_cons]
    ring

/-- All indices are below `N`. -/
def Digits (N : Nat) (p : List Nat) : Prop := ∀ i ∈ p, i < N

theorem idx_lt {N : Nat} {p : List Nat} (h : Digits N p) : idx N p < N ^ p.length := by
  induction p with
  | nil => simp [idx]
  | cons i p ih =>
    have hi : i < N := h i (by simp)
    have hp := ih fun j hj => h j (List.mem_cons_of_mem i hj)
    simp only [idx, List.length_cons, pow_succ']
    calc i + N * idx N p < N + N * idx N p := by omega
      _ = N * (idx N p + 1) := by ring
      _ ≤ N * N ^ p.length := Nat.mul_le_mul_left N hp

/-- The first data block below the path `q`, counted from the start of a block of the level `h`. -/
def firstBelow (N h : Nat) (q : List Nat) : Nat := idx N q * N ^ (h + 1 - q.length)

theorem firstBelow_child {N h : Nat} (hq : q.length ≤ h + 1) :
    firstBelow N (h + 1) (q ++ [i]) = firstBelow N h q + i * N ^ (h + 1) := by
  have hlen : h + 1 + 1 - (q ++ [i]).length = h + 1 - q.length := by simp
  have hpow : N ^ q.length * N ^ (h + 1 - q.length) = N ^ (h + 1) := by rw [← pow_add, Nat.add_sub_cancel' hq]
  rw [firstBelow, hlen, idx_append, firstBelow, Nat.add_mul, ← hpow]
  simp only [idx, Nat.mul_zero, Nat.add_zero]
  ring

theorem firstBelow_lt {N h : Nat} (hd : Digits N q) (hN : 0 < N) (hq : q.length ≤ h + 1) :
    firstBelow N h q < N ^ (h + 1) := by
  have hpow : N ^ q.length * N ^ (h + 1 - q.length) = N ^ (h + 1) := by rw [← pow_add, Nat.add_sub_cancel' hq]
  rw [firstBelow, ← hpow]
  exact Nat.mul_lt_mul_of_pos_right (idx_lt hd) (Nat.pow_pos hN)

theorem firstBelow_cons {N h : Nat} (hq : q.length ≤ h) : firstBelow N h q ≤ firstBelow N h (i :: q) := by
  have hlen : h + 1 - q.length = h + 1 - (i :: q).length + 1 := by
    simp only [List.length_cons]
    omega
  rw [firstBelow, hlen, pow_succ', firstBelow, ← Nat.mul_assoc]
  exact Nat.mul_le_mul_right _ (by simp only [idx]; rw [Nat.mul_comm]; omega)

theorem length_snoc_lt {h : Nat} (hq : q.length < h) : (q ++ [i]).length < h + 1 := by
  simp only [List.length_append, List.length_singleton]
  omega

theorem node_append (P : Nat → Nat → Nat) (r : Nat) (q p : List Nat) :
    node P r (q ++ p) = if node P r p = 0 then 0 else node P (node P r p) q := by
  induction q with
  | nil =>
    by_cases h : node P r p = 0
    · simp [h]
    · simp [h, node]
  | cons i q ih =>
    rw [List.cons_append, node, ih]
    by_cases h : node P r p = 0
    · simp [h]
    · simp only [h, if_false]
      rfl

/-- The blocks below the indirect block `b` of the level `h`, itself included, are different ones. -/
structure Tree (P : Nat → Nat → Nat) (h b : Nat) : Prop where
  root : b ≠ 0
  inj : ∀ q q' : List Nat, q.length ≤ h + 1 → q'.length ≤ h + 1 → node P b q ≠ 0 → node P b q = node P b q' → q = q'

variable {N : Nat} {P : Nat → Nat → Nat} {h b : Nat}

theorem node_child (hb : b ≠ 0) (hi : P b i ≠ 0) (q : List Nat) : node P b (q ++ [i]) = node P (P b i) q := by
  have hone : node P b [i] = P b i := by simp [node, hb]
  rw [node_append, hone, if_neg hi]

theorem Tree.child (ht : Tree P (h + 1) b) (hi : P b i ≠ 0) : Tree P h (P b i) where
  root := hi
  inj q q' hq hq' hne heq := by
    rw [← node_child ht.root hi] at hne heq
    rw [← node_child ht.root hi] at heq
    have := ht.inj (q ++ [i]) (q' ++ [i]) (by simpa using hq) (by simpa using hq') hne heq
    simpa using this

/-- There are no entries behind the `N`th, so a path that leads to a block has all its indices below `N`. -/
theorem digits_of_node (hrange : ∀ a i, N ≤ i → P a i = 0) (hq : node P b q ≠ 0) : Digits N q := by
  induction q with
  | nil => simp [Digits]
  | cons i q ih =>
    rw [node] at hq
    by_cases hz : node P b q = 0
    · simp [hz] at hq
    · rw [if_neg hz] at hq
      intro j hj
      rcases List.mem_cons.1 hj with rfl | hj
      · by_contra hge
        exact hq (hrange _ _ (by omega))
      · exact ih hz j hj

/-- The data blocks up to the number `lastbn` are kept, and what leads to them. -/
def Keeps (N h : Nat) (lastbn : Int) (q : List Nat) : Prop := (firstBelow N h q : Int) ≤ lastbn

instance (N h : Nat) (lastbn : Int) (q : List Nat) : Decidable (Keeps N h lastbn q) := inferInstanceAs (Decidable (_ ≤ _))

/-- The blocks that are reached from `c` in fewer than `h` steps are still as they are in `P`. -/
def Intact (P : Nat → Nat → Nat) (h c : Nat) (w : Work) : Prop :=
  ∀ q : List Nat, q.length < h → node P c q ≠ 0 → w.ptrs (node P c q) = P (node P c q)

/-- `a` is none of the blocks that are reached from `c` in fewer than `h` steps. -/
def Outside (P : Nat → Nat → Nat) (h c a : Nat) : Prop :=
  ∀ q : List Nat, q.length < h → node P c q ≠ 0 → node P c q ≠ a

theorem Intact.of_frame {c : Nat} (hi : Intact P h c w)
    (hframe : ∀ q : List Nat, q.length < h → node P c q ≠ 0 → w'.ptrs (node P c q) = w.ptrs (node P c q)) : Intact P h c w' :=
  fun q hq hne => (hframe q hq hne).trans (hi q hq hne)

/-! ## The entries behind the last one -/

theorem Tree.apart (ht : Tree P h b) {j : Nat} (hij : i ≠ j) (hi : P b i ≠ 0) (hj : P b j ≠ 0) {q' : List Nat}
    (hq : q.length ≤ h) (hq' : q'.length ≤ h) (hne : node P (P b i) q ≠ 0) : node P (P b i) q ≠ node P (P b j) q' := by
  intro heq
  rw [← node_child ht.root hi] at hne heq
  rw [← node_child ht.root hj] at heq
  have hlast := congrArg List.getLast? (ht.inj (q ++ [i]) (q' ++ [j]) (by simpa using hq) (by simpa using hq') hne heq)
  simp only [List.getLast?_append, List.getLast?_singleton, Option.some_or, Option.some.injEq] at hlast
  exact hij hlast

/-- What `sub` does to an entry: it frees what is below it. -/
structure FreesBelow (fs : Fs) (P : Nat → Nat → Nat) (h c : Nat) (w w' : Work) : Prop where
  frame : ∀ a, Outside P h c a → w'.ptrs a = w.ptrs a
  freed : Frees fs (fun e => ∃ q : List Nat, q ≠ [] ∧ q.length ≤ h ∧ node P c q ≠ 0 ∧ e = (node P c q, fs.bsize)) w w'

/-- The entries `is` of `b` are freed with all that is below them. -/
structure FreesEntries (fs : Fs) (P : Nat → Nat → Nat) (h b : Nat) (is : List Nat) (w w' : Work) : Prop where
  frame : ∀ a, (∀ i ∈ is, P b i ≠ 0 → Outside P h (P b i) a) → w'.ptrs a = w.ptrs a
  freed : Frees fs (fun e => ∃ i ∈ is, P b i ≠ 0 ∧ ∃ q : List Nat, q.length ≤ h ∧ node P (P b i) q ≠ 0 ∧
    e = (node P (P b i) q, fs.bsize)) w w'

theorem foldl_entries (ht : Tree P h b) {sub : Nat → Work → Work}
    (hsub : ∀ i, P b i ≠ 0 → ∀ w, Intact P h (P b i) w → FreesBelow fs P h (P b i) w (sub (P b i) w)) :
    ∀ (is : List Nat) (w : Work), is.Nodup → (∀ i ∈ is, P b i ≠ 0 → Intact P h (P b i) w) →
      FreesEntries fs P h b is w
        (freeAll fs sub (P b) is w) := by
  intro is
  induction is with
  | nil => exact fun w _ _ => ⟨fun _ _ => rfl, (Frees.refl w).congr fun e => by simp⟩
  | cons i is ih =>
    intro w hnd hin
    obtain ⟨hfresh, hnd⟩ := List.nodup_cons.1 hnd
    rw [freeAll, List.foldl_cons]
    change FreesEntries fs P h b (i :: is) w (freeAll fs sub (P b) is _)
    by_cases hzero : P b i = 0
    · rw [if_pos hzero]
      obtain ⟨hframe, hfreed⟩ := ih w hnd fun j hj => hin j (List.mem_cons_of_mem i hj)
      refine ⟨fun a ha => hframe a fun j hj => ha j (List.mem_cons_of_mem i hj), hfreed.congr fun e => ?_⟩
      simp only [List.exists_mem_cons_iff, hzero, ne_eq, not_true_eq_false, false_and, false_or]
    · rw [if_neg hzero]
      have hbelow := hsub i hzero w (hin i (by simp) hzero)
      have hapart : ∀ j ∈ is, P b j ≠ 0 → ∀ q : List Nat, q.length ≤ h → node P (P b j) q ≠ 0 →
          ∀ q' : List Nat, q'.length ≤ h → node P (P b i) q' ≠ 0 → node P (P b i) q' ≠ node P (P b j) q := by
        intro j hj hjne q hq _ q' hq' hne'
        have hij : i ≠ j := by
          rintro rfl
          exact hfresh hj
        exact ht.apart hij hzero hjne hq' hq hne'
      have hrest := ih (release fs (P b i) fs.bsize (sub (P b i) w)) hnd fun j hj hjne => by
        apply (hin j (List.mem_cons_of_mem i hj) hjne).of_frame
        intro q hq hne
        exact hbelow.frame _ fun q' hq' hne' => hapart j hj hjne q hq.le hne q' hq'.le hne'
      refine ⟨fun a ha => ?_, ?_⟩
      · rw [hrest.frame a fun j hj => ha j (List.mem_cons_of_mem i hj)]
        exact hbelow.frame a (ha i (by simp) hzero)
      · -- what is below the entry, the entry, and the other entries
        have hone : ∀ e e', (∃ q : List Nat, q ≠ [] ∧ q.length ≤ h ∧ node P (P b i) q ≠ 0 ∧ e = (node P (P b i) q, fs.bsize)) →
            e' = (P b i, fs.bsize) → e.1 ≠ e'.1 := by
          rintro _ _ ⟨q, hq, hlen, hne, rfl⟩ rfl heq
          have hroot : node P (P b i) q = node P (P b i) [] := heq
          rw [← node_child ht.root hzero] at hroot hne
          rw [← node_child ht.root hzero] at hroot
          have := ht.inj (q ++ [i]) ([] ++ [i]) (by simpa using hlen) (by simp) hne hroot
          exact hq (by simpa using this)
        have hself := hbelow.freed.trans (frees_release (P b i) fs.bsize _) hone
        have hbelowEq : ∀ e, ((∃ q : List Nat, q ≠ [] ∧ q.length ≤ h ∧ node P (P b i) q ≠ 0 ∧ e = (node P (P b i) q, fs.bsize)) ∨
            e = (P b i, fs.bsize)) ↔ ∃ q : List Nat, q.length ≤ h ∧ node P (P b i) q ≠ 0 ∧ e = (node P (P b i) q, fs.bsize) := by
          intro e
          constructor
          · rintro (⟨q, -, hlen, hne, rfl⟩ | rfl)
            · exact ⟨q, hlen, hne, rfl⟩
            · exact ⟨[], Nat.zero_le h, hzero, rfl⟩
          · rintro ⟨q, hlen, hne, rfl⟩
            by_cases hq : q = []
            · subst hq
              exact .inr rfl
            · exact .inl ⟨q, hq, hlen, hne, rfl⟩
        refine ((hself.congr hbelowEq).trans hrest.freed ?_).congr fun e => ?_
        · rintro _ _ ⟨q, hlen, hne, rfl⟩ ⟨j, hj, hjne, q', hlen', hne', rfl⟩
          exact hapart j hj hjne q' hlen' hne' q hlen hne
        · simp only [List.exists_mem_cons_iff, hzero, ne_eq, not_false_eq_true, true_and]

/-- What is left of the blocks below `b`, and what is freed, when the blocks up to `lastbn` are kept. -/
structure Pruned (fs : Fs) (P : Nat → Nat → Nat) (h b : Nat) (lastbn : Int) (w w' : Work) : Prop where
  frame : ∀ c, (∀ q : List Nat, q.length ≤ h → node P b q ≠ 0 → node P b q ≠ c) → w'.ptrs c = w.ptrs c
  kept : ∀ q : List Nat, q.length ≤ h → node P b q ≠ 0 → q = [] ∨ Keeps fs.NINDIR h lastbn q →
    ∀ i, w'.ptrs (node P b q) i = if Keeps fs.NINDIR h lastbn (i :: q) then P (node P b q) i else 0
  freed : Frees fs (fun e => ∃ q : List Nat, q ≠ [] ∧ q.length ≤ h + 1 ∧ node P b q ≠ 0 ∧ ¬Keeps fs.NINDIR h lastbn q ∧
    e = (node P b q, fs.bsize)) w w'

/-! ## Which entry is the last -/

theorem lastIndex_eq {lvl : Nat} (hlast : -1 ≤ lastbn) :
    lastIndex fs lvl lastbn = lastbn / (fs.NINDIR ^ lvl : Nat) := by
  have hpos : (0 : Int) < (fs.NINDIR ^ lvl : Nat) := by exact_mod_cast Nat.pow_pos fs.NINDIR_pos
  unfold lastIndex
  split_ifs with h
  · push_cast
    rfl
  · rcases (by omega : lastbn = -1 ∨ lastbn = 0) with rfl | rfl
    · rw [Int.neg_one_ediv, Int.sign_eq_one_of_pos hpos]
    · simp

theorem firstBelow_last {h : Nat} (hd : Digits N q) (hN : 0 < N) (hq : q.length ≤ h) :
    ∃ r < N ^ h, firstBelow N h (q ++ [i]) = i * N ^ h + r := by
  cases h with
  | zero =>
    obtain rfl := List.length_eq_zero_iff.1 (by omega : q.length = 0)
    exact ⟨0, by simp, by simp [firstBelow, idx]⟩
  | succ h => exact ⟨firstBelow N h q, firstBelow_lt hd hN (by omega), by rw [firstBelow_child hq, Nat.add_comm]⟩

section Entry
variable {h i : Nat} {q : List Nat} {lastbn : Int}

theorem keeps_before (hd : Digits N q) (hN : 0 < N) (hq : q.length ≤ h) (hi : (i : Int) < lastbn / (N ^ h : Nat)) :
    Keeps N h lastbn (q ++ [i]) := by
  obtain ⟨r, hr, hfirst⟩ := firstBelow_last (i := i) hd hN hq
  have hpos : (0 : Int) < (N ^ h : Nat) := by exact_mod_cast Nat.pow_pos hN
  have hle := (Int.le_ediv_iff_mul_le hpos).1 (by omega : (i : Int) + 1 ≤ lastbn / (N ^ h : Nat))
  rw [Keeps, hfirst, Nat.cast_add, Nat.cast_mul]
  rw [Int.add_mul, Int.one_mul] at hle
  omega

theorem not_keeps_behind (hd : Digits N q) (hN : 0 < N) (hq : q.length ≤ h) (hi : lastbn / (N ^ h : Nat) < (i : Int)) :
    ¬Keeps N h lastbn (q ++ [i]) := by
  obtain ⟨r, hr, hfirst⟩ := firstBelow_last (i := i) hd hN hq
  have hpos : (0 : Int) < (N ^ h : Nat) := by exact_mod_cast Nat.pow_pos hN
  have hlt := (Int.ediv_lt_iff_lt_mul hpos).1 hi
  rw [Keeps, hfirst, Nat.cast_add, Nat.cast_mul]
  omega

theorem keeps_last (hq : q.length ≤ h + 1) (hi : lastbn / (N ^ (h + 1) : Nat) = (i : Int)) :
    Keeps N (h + 1) lastbn (q ++ [i]) ↔ Keeps N h (lastbn % (N ^ (h + 1) : Nat)) q := by
  have hdiv := Int.mul_ediv_add_emod lastbn (N ^ (h + 1) : Nat)
  rw [hi] at hdiv
  rw [Keeps, Keeps, firstBelow_child hq, Nat.cast_add, Nat.cast_mul]
  rw [mul_comm] at hdiv
  omega

end Entry

theorem keeps_entry {h : Nat} (hN : 0 < N) : Keeps N h lastbn [i] ↔ (i : Int) ≤ lastbn / (N ^ h : Nat) := by
  have hpos : (0 : Int) < (N ^ h : Nat) := by exact_mod_cast Nat.pow_pos hN
  have hfirst : firstBelow N h [i] = i * N ^ h := by simp [firstBelow, idx]
  rw [Keeps, hfirst, Nat.cast_mul, Int.le_ediv_iff_mul_le hpos]

theorem mem_behind {last : Int} : i ∈ behind fs last ↔ i < fs.NINDIR ∧ last < (i : Int) := by
  simp [behind]

theorem nodup_behind (last : Int) : (behind fs last).Nodup :=
  List.nodup_reverse.2 (List.nodup_range.filter _)

/-! ## Indirect blocks of any level -/

theorem intact_child (ht : Tree P h b) (hi : Intact P (h + 1) b w) (last : Int) (hne : P b i ≠ 0) :
    Intact P h (P b i) (cut b last w) := by
  intro q hq hnode
  have heq := node_child ht.root hne q
  have hb : node P (P b i) q ≠ b := by
    intro hself
    rw [← heq] at hself hnode
    have := ht.inj (q ++ [i]) [] (by simp; omega) (by simp) hnode hself
    simp at this
  rw [cut_of_ne hb]
  rw [← heq] at hnode ⊢
  exact hi (q ++ [i]) (length_snoc_lt hq) hnode

/-- The block `b` once its own entries are cut and what they led to is freed. -/
structure Emptied (fs : Fs) (P : Nat → Nat → Nat) (h b : Nat) (last : Int) (w w' : Work) : Prop where
  self : ∀ i : Nat, w'.ptrs b i = if (i : Int) ≤ last then P b i else 0
  frame : ∀ a, a ≠ b → (∀ i : Nat, last < (i : Int) → P b i ≠ 0 → Outside P h (P b i) a) → w'.ptrs a = w.ptrs a
  freed : Frees fs (fun e => ∃ i : Nat, last < (i : Int) ∧ P b i ≠ 0 ∧ ∃ q : List Nat, q.length ≤ h ∧ node P (P b i) q ≠ 0 ∧
    e = (node P (P b i) q, fs.bsize)) w w'

theorem freeAll_empties (hrange : ∀ a i, fs.NINDIR ≤ i → P a i = 0) (ht : Tree P h b) (hi : Intact P (h + 1) b w)
    {sub : Nat → Work → Work}
    (hsub : ∀ i, P b i ≠ 0 → ∀ w, Intact P h (P b i) w → FreesBelow fs P h (P b i) w (sub (P b i) w)) (last : Int) :
    Emptied fs P h b last w (freeAll fs sub (P b) (behind fs last)
      (cut b last w)) := by
  have hfold : FreesEntries fs P h b (behind fs last) (cut b last w) (freeAll fs sub (P b) (behind fs last) (cut b last w)) :=
    foldl_entries ht hsub (behind fs last) (cut b last w) (nodup_behind last) fun i _ hne => intact_child ht hi last hne
  obtain ⟨hframe, hfreed⟩ := hfold
  have hlt : ∀ i, P b i ≠ 0 → i < fs.NINDIR := by
    intro i hne
    by_contra hge
    exact hne (hrange b i (by omega))
  refine ⟨fun i => ?_, fun a ha hout => ?_, (Frees.store hfreed).congr fun e => ?_⟩
  · have hb : (freeAll fs sub (P b) (behind fs last) _).ptrs b = _ := hframe b fun j _ hne q hq hnode hself => by
      rw [← node_child ht.root hne] at hself hnode
      have := ht.inj (q ++ [j]) [] (by simp; omega) (by simp) hnode hself
      simp at this
    have hself : w.ptrs b = P b := hi [] (Nat.succ_pos h) ht.root
    rw [hb, cut_self, hself]
  · have hsame : (freeAll fs sub (P b) (behind fs last) _).ptrs a = _ := hframe a fun i hmem hne => hout i (mem_behind.1 hmem).2 hne
    rw [hsame, cut_of_ne ha]
  · constructor
    · rintro ⟨i, hmem, hne, hrest⟩
      exact ⟨i, (mem_behind.1 hmem).2, hne, hrest⟩
    · rintro ⟨i, hl, hne, hrest⟩
      exact ⟨i, mem_behind.2 ⟨hlt i hne, hl⟩, hne, hrest⟩

/-- A path to a block below `b` ends with an entry of `b`. -/
theorem node_ne_nil (hb : b ≠ 0) (hq : q ≠ []) (hne : node P b q ≠ 0) :
    ∃ q' i, q = q' ++ [i] ∧ P b i ≠ 0 ∧ node P b q = node P (P b i) q' ∧ node P (P b i) q' ≠ 0 := by
  rcases List.eq_nil_or_concat q with hnil | ⟨q', i, rfl⟩
  · exact absurd hnil hq
  · have hi : P b i ≠ 0 := by
      intro hzero
      have hone : node P b [i] = 0 := by simp [node, hb, hzero]
      rw [List.concat_eq_append, node_append, if_pos hone] at hne
      exact hne rfl
    rw [List.concat_eq_append, node_child hb hi] at hne
    exact ⟨q', i, List.concat_eq_append, hi, by rw [List.concat_eq_append, node_child hb hi], hne⟩

section Assemble
variable {lastbn : Int} {last : Int}

theorem Emptied.before (ht : Tree P h b) (hi : Intact P (h + 1) b w) (he : Emptied fs P h b last w w')
    (hq : q.length < h) (hne : P b i ≠ 0) (hnode : node P (P b i) q ≠ 0) (hle : (i : Int) ≤ last) :
    w'.ptrs (node P (P b i) q) = P (node P (P b i) q) := by
  have heq := node_child ht.root hne q
  have hb : node P (P b i) q ≠ b := by
    intro hself
    rw [← heq] at hself hnode
    have := ht.inj (q ++ [i]) [] (by simp; omega) (by simp) hnode hself
    simp at this
  rw [he.frame _ hb]
  · rw [← heq] at hnode ⊢
    exact hi (q ++ [i]) (length_snoc_lt hq) hnode
  · intro j hj hjne q' hq' hnode'
    have hij : j ≠ i := by omega
    exact ht.apart hij hjne hne hq'.le hq.le hnode'

theorem emptied_pieces (hrange : ∀ a i, fs.NINDIR ≤ i → P a i = 0) (ht : Tree P h b) (e : Nat × Nat) :
    (∃ i : Nat, lastbn / (fs.NINDIR ^ h : Nat) < (i : Int) ∧ P b i ≠ 0 ∧ ∃ q : List Nat, q.length ≤ h ∧
      node P (P b i) q ≠ 0 ∧ e = (node P (P b i) q, fs.bsize)) ↔
    ∃ q i, lastbn / (fs.NINDIR ^ h : Nat) < ((i : Nat) : Int) ∧ q.length ≤ h ∧ P b i ≠ 0 ∧ node P b (q ++ [i]) ≠ 0 ∧
      ¬Keeps fs.NINDIR h lastbn (q ++ [i]) ∧ e = (node P b (q ++ [i]), fs.bsize) := by
  constructor
  · rintro ⟨i, hl, hne, q, hq, hnode, rfl⟩
    have hdigits := digits_of_node hrange hnode
    exact ⟨q, i, hl, hq, hne, by rwa [node_child ht.root hne], not_keeps_behind hdigits fs.NINDIR_pos hq hl,
      by rw [node_child ht.root hne]⟩
  · rintro ⟨q, i, hl, hq, hne, hnode, -, rfl⟩
    rw [node_child ht.root hne] at hnode ⊢
    exact ⟨i, hl, hne, q, hq, hnode, rfl⟩

theorem entry_before (hrange : ∀ a i, fs.NINDIR ≤ i → P a i = 0) (hd : Digits fs.NINDIR q) (hq : q.length < h)
    (hlt : (i : Int) < lastbn / (fs.NINDIR ^ h : Nat)) (a j : Nat) :
    (if Keeps fs.NINDIR h lastbn (j :: (q ++ [i])) then P a j else 0) = P a j := by
  split_ifs with hj
  · rfl
  · by_contra hentry
    have hjN : j < fs.NINDIR := by
      by_contra hge
      exact hentry (hrange a j (by omega)).symm
    have hdigits : Digits fs.NINDIR (j :: q) := by
      intro k hk
      rcases List.mem_cons.1 hk with rfl | hk
      · exact hjN
      · exact hd k hk
    exact hj (keeps_before hdigits fs.NINDIR_pos hq hlt)

/-- A block of which the last entry is kept or freed as a whole. -/
theorem Emptied.pruned (hrange : ∀ a i, fs.NINDIR ≤ i → P a i = 0) (ht : Tree P h b) (hi : Intact P (h + 1) b w)
    (he : Emptied fs P h b (lastbn / (fs.NINDIR ^ h : Nat)) w w')
    (hwhole : ∀ i : Nat, lastbn / (fs.NINDIR ^ h : Nat) = (i : Int) → P b i ≠ 0 → h = 0) : Pruned fs P h b lastbn w w' := by
  have hN := fs.NINDIR_pos
  refine ⟨fun c hc => ?_, fun q hq hne hkeep j => ?_, (he.freed.congr (emptied_pieces hrange ht)).congr fun e => ?_⟩
  · apply he.frame c (fun hcb => hc [] (Nat.zero_le h) ht.root hcb.symm)
    intro i _ hne q hq hnode
    rw [← node_child ht.root hne] at hnode ⊢
    exact hc (q ++ [i]) (Nat.lt_succ_iff.1 (length_snoc_lt hq)) hnode
  · by_cases hnil : q = []
    · subst hnil
      simp only [node, he.self, keeps_entry hN]
    · obtain ⟨q', i, rfl, hchild, heq, hnode⟩ := node_ne_nil ht.root hnil hne
      have hdigits := digits_of_node hrange hnode
      have hlen : q'.length < h := by
        rw [List.length_append, List.length_singleton] at hq
        omega
      have hkeep := hkeep.resolve_left hnil
      have hle : (i : Int) ≤ lastbn / (fs.NINDIR ^ h : Nat) := by
        by_contra hgt
        exact not_keeps_behind hdigits hN hlen.le (by omega) hkeep
      have hlt : (i : Int) < lastbn / (fs.NINDIR ^ h : Nat) := by
        rcases hle.lt_or_eq with hlt | hlast
        · exact hlt
        · have := hwhole i hlast.symm hchild
          omega
      rw [heq, he.before ht hi hlen hchild hnode hle]
      exact (entry_before hrange hdigits hlen hlt _ j).symm
  · constructor
    · rintro ⟨q, i, hl, hq, hne, hnode, hk, rfl⟩
      exact ⟨q ++ [i], by simp, by simpa using hq, hnode, hk, rfl⟩
    · rintro ⟨q, hq, hlen, hne, hk, rfl⟩
      obtain ⟨q', i, rfl, hchild, heq, hnode⟩ := node_ne_nil ht.root hq hne
      have hdigits := digits_of_node hrange hnode
      have hlen' : q'.length ≤ h := by simpa using hlen
      refine ⟨q', i, ?_, hlen', hchild, hne, hk, rfl⟩
      by_contra hge
      rcases (by omega : (i : Int) ≤ lastbn / (fs.NINDIR ^ h : Nat)).lt_or_eq with hlt | hlast
      · exact hk (keeps_before hdigits hN hlen' hlt)
      · obtain rfl := List.length_eq_zero_iff.1 (by have := hwhole i hlast.symm hchild; omega : q'.length = 0)
        exact hk ((keeps_entry hN).2 hlast.le)

/-- A block of which the last entry is cut itself. -/
theorem Emptied.andLast (hrange : ∀ a i, fs.NINDIR ≤ i → P a i = 0) (ht : Tree P (h + 1) b) (hi : Intact P (h + 2) b w)
    (he : Emptied fs P (h + 1) b (lastbn / (fs.NINDIR ^ (h + 1) : Nat)) w w') {k : Nat}
    (hk : lastbn / (fs.NINDIR ^ (h + 1) : Nat) = (k : Int)) (hchild : P b k ≠ 0)
    (hp : Pruned fs P h (P b k) (lastbn % (fs.NINDIR ^ (h + 1) : Nat)) w' w'') : Pruned fs P (h + 1) b lastbn w w'' := by
  have hN := fs.NINDIR_pos
  have hself : ∀ q : List Nat, q.length ≤ h → node P (P b k) q ≠ 0 → node P (P b k) q ≠ b := by
    intro q hq hnode hb
    rw [← node_child ht.root hchild] at hnode hb
    have := ht.inj (q ++ [k]) [] (by rw [List.length_append, List.length_singleton]; omega) (by simp) hnode hb
    simp at this
  refine ⟨fun c hc => ?_, fun q hq hne hkeep j => ?_, (he.freed.trans hp.freed ?_).congr fun e => ?_⟩
  · have hlast : w''.ptrs c = w'.ptrs c := hp.frame c fun q hq hnode => by
      rw [← node_child ht.root hchild] at hnode ⊢
      exact hc (q ++ [k]) (by simpa using hq) hnode
    rw [hlast]
    apply he.frame c (fun hcb => hc [] (Nat.zero_le _) ht.root hcb.symm)
    intro i _ hne q hq hnode
    rw [← node_child ht.root hne] at hnode ⊢
    exact hc (q ++ [i]) (Nat.lt_succ_iff.1 (length_snoc_lt hq)) hnode
  · by_cases hnil : q = []
    · subst hnil
      simp only [node, hp.frame b hself, he.self, keeps_entry hN]
    · obtain ⟨q', i, rfl, hne', heq, hnode⟩ := node_ne_nil ht.root hnil hne
      have hdigits := digits_of_node hrange hnode
      have hlen : q'.length ≤ h := by simpa using hq
      have hkeep := hkeep.resolve_left hnil
      have hle : i ≤ k := by
        by_contra hgt
        exact not_keeps_behind hdigits hN (by omega) (by rw [hk]; omega) hkeep
      rw [heq]
      rcases hle.lt_or_eq with hlt | rfl
      · -- below an entry before the last one
        have hlt' : (i : Int) < lastbn / (fs.NINDIR ^ (h + 1) : Nat) := by omega
        have hother : w''.ptrs (node P (P b i) q') = w'.ptrs (node P (P b i) q') := hp.frame _ fun q hq hnode' => by
          exact ht.apart (by omega) hchild hne' (by omega) (by omega) hnode'
        rw [hother, he.before ht hi (by omega) hne' hnode hlt'.le]
        exact (entry_before hrange hdigits (by omega) hlt' _ j).symm
      · have hkeep' : q' = [] ∨ Keeps fs.NINDIR h (lastbn % (fs.NINDIR ^ (h + 1) : Nat)) q' :=
          .inr ((keeps_last (by omega) hk).1 hkeep)
        have hcons : Keeps fs.NINDIR (h + 1) lastbn (j :: (q' ++ [i])) ↔
            Keeps fs.NINDIR h (lastbn % (fs.NINDIR ^ (h + 1) : Nat)) (j :: q') :=
          keeps_last (q := j :: q') (by simpa using hlen) hk
        rw [hp.kept q' hlen hnode hkeep' j]
        simp only [hcons]
  · rintro _ _ ⟨i, hl, hne, q, hq, hnode, rfl⟩ ⟨q', -, hq', hnode', -, rfl⟩
    exact ht.apart (by omega) hne hchild hq hq' hnode
  · rw [emptied_pieces hrange ht]
    constructor
    · rintro (⟨q, i, hl, hq, hne, hnode, hkeep, rfl⟩ | ⟨q, hnil, hq, hnode, hkeep, rfl⟩)
      · exact ⟨q ++ [i], by simp, by simpa using hq, hnode, hkeep, rfl⟩
      · rw [← node_child ht.root hchild] at hnode ⊢
        exact ⟨q ++ [k], by simp, by simpa using hq, hnode, fun hk' => hkeep ((keeps_last hq hk).1 hk'), rfl⟩
    · rintro ⟨q, hnil, hq, hne, hkeep, rfl⟩
      obtain ⟨q', i, rfl, hne', heq, hnode⟩ := node_ne_nil ht.root hnil hne
      have hdigits := digits_of_node hrange hnode
      have hlen : q'.length ≤ h + 1 := by simpa using hq
      rcases lt_trichotomy i k with hlt | rfl | hgt
      · exact absurd (keeps_before hdigits hN hlen (by omega)) hkeep
      · have hnil' : q' ≠ [] := by
          rintro rfl
          exact hkeep ((keeps_entry hN).2 hk.ge)
        exact .inr ⟨q', hnil', hlen, hnode, fun hk' => hkeep ((keeps_last hlen hk).2 hk'), by rw [heq]⟩
      · exact .inl ⟨q', i, by omega, hlen, hne', hne, hkeep, rfl⟩

end Assemble

/-- `indirtrunc` keeps the blocks up to `lastbn` and what leads to them, and frees the others once. -/
theorem truncBelow_prunes (hrange : ∀ a i, fs.NINDIR ≤ i → P a i = 0) (ht : Tree P h b) (hi : Intact P (h + 1) b w)
    (hlast : -1 ≤ lastbn) : Pruned fs P h b lastbn w (truncBelow fs h b lastbn w) := by
  have hroot : ∀ {h b w}, Tree P h b → Intact P (h + 1) b w → w.ptrs b = P b :=
    fun ht hi => hi [] (Nat.succ_pos _) ht.root
  induction h generalizing b lastbn w with
  | zero =>
    have hsub : ∀ i, P b i ≠ 0 → ∀ w, Intact P 0 (P b i) w → FreesBelow fs P 0 (P b i) w w := by
      intro i _ w _
      refine ⟨fun _ _ => rfl, (Frees.refl w).congr fun e => ⟨False.elim, ?_⟩⟩
      rintro ⟨q, hnil, hq, -⟩
      exact hnil (List.length_eq_zero_iff.1 (by omega))
    rw [truncBelow]
    simp only [hroot ht hi, lastIndex_eq hlast]
    exact (freeAll_empties hrange ht hi hsub _).pruned hrange ht hi fun _ _ _ => rfl
  | succ h ih =>
    have hsub : ∀ i, P b i ≠ 0 → ∀ w, Intact P (h + 1) (P b i) w →
        FreesBelow fs P (h + 1) (P b i) w (truncBelow fs h (P b i) (-1) w) := by
      intro i hne w hi
      have hp := ih (ht.child hne) hi (le_refl (-1))
      refine ⟨fun a ha => hp.frame a fun q hq => ha q (by omega), hp.freed.congr fun e => ?_⟩
      constructor
      · rintro ⟨q, hnil, hq, hnode, -, rfl⟩
        exact ⟨q, hnil, hq, hnode, rfl⟩
      · rintro ⟨q, hnil, hq, hnode, rfl⟩
        exact ⟨q, hnil, hq, hnode, by unfold Keeps; omega, rfl⟩
    have hpos : (0 : Int) < (fs.NINDIR ^ (h + 1) : Nat) := by exact_mod_cast Nat.pow_pos fs.NINDIR_pos
    have he : Emptied fs P (h + 1) b (lastbn / (fs.NINDIR ^ (h + 1) : Nat)) w
        (freeAll fs (fun nb => truncBelow fs h nb (-1)) (P b) (behind fs (lastbn / (fs.NINDIR ^ (h + 1) : Nat)))
          (cut b (lastbn / (fs.NINDIR ^ (h + 1) : Nat)) w)) := freeAll_empties hrange ht hi hsub _
    rw [truncBelow]
    simp only [hroot ht hi, lastIndex_eq hlast]
    split_ifs with hcut
    · obtain ⟨hge, hchild⟩ := hcut
      have hk : lastbn / (fs.NINDIR ^ (h + 1) : Nat) = ((lastbn / (fs.NINDIR ^ (h + 1) : Nat)).toNat : Int) :=
        (Int.toNat_of_nonneg (Int.ediv_nonneg hge hpos.le)).symm
      have hrest : (-1 : Int) ≤ lastbn % (fs.NINDIR ^ (h + 1) : Nat) := by
        have := Int.emod_nonneg lastbn hpos.ne'
        omega
      have hp := ih (ht.child hchild) (w := freeAll fs (fun nb => truncBelow fs h nb (-1)) (P b)
        (behind fs (lastbn / (fs.NINDIR ^ (h + 1) : Nat))) (cut b (lastbn / (fs.NINDIR ^ (h + 1) : Nat)) w))
        (fun q hq hnode => he.before ht hi hq hchild hnode hk.ge) hrest
      have hpow : (fs.NINDIR : Int) ^ (h + 1) = (fs.NINDIR ^ (h + 1) : Nat) := by
        push_cast
        rfl
      rw [hpow]
      exact he.andLast hrange ht hi hk hchild hp
    · apply he.pruned hrange ht hi
      intro i hlasti hne
      refine absurd ⟨?_, ?_⟩ hcut
      · by_contra hneg
        have := Int.ediv_lt_of_lt_mul hpos (by omega : lastbn < 0 * (fs.NINDIR ^ (h + 1) : Nat))
        omega
      · rwa [hlasti, Int.toNat_natCast]

end BsdKernel.UfsTrunc
