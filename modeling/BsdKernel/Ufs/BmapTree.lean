import BsdKernel.Lib.Extents
import BsdKernel.Ufs.Bmap
import Mathlib.Tactic.Ring
/-!
# The places of a file's blocks

A file has a `Slot` for each of its blocks: a direct address of the inode, or a path of
indices from one of its three indirect addresses. The path is written from the block
upwards, so that `i :: p` is the entry `i` of the indirect block at `p`. `addr s` is the
address in each slot, and `dataSlot` the slot of a logical block: `bmap` returns what is
in it. Storing one address changes that of one slot only, as long as no block is in two
slots.
-/

namespace BsdKernel.UfsBmap

open BsdKernel.Lib

variable {m r l i a : Nat} {p : List Nat} {bn : Int}

inductive Slot where
  | direct (i : Nat)
  | indirect (l : Nat) (path : List Nat)
  deriving DecidableEq

/-- The address at a path from the root `r`; there is nothing below a hole. -/
def node (ptrs : Nat → Nat → Nat) (r : Nat) : List Nat → Nat
  | [] => r
  | i :: p => if node ptrs r p = 0 then 0 else ptrs (node ptrs r p) i

def slotAddr (ip : Inode) (ptrs : Nat → Nat → Nat) : Slot → Nat
  | .direct i => if i < NDADDR then ip.db i else 0
  | .indirect l p => if l < NIADDR ∧ p.length ≤ l + 1 then node ptrs (ip.ib l) p else 0

def addr (s : State) : Slot → Nat := slotAddr s.ip s.ptrs

variable {fs : Fs} {s : State}

/-- The fragments of a block. -/
def len (fs : Fs) (ip : Inode) : Slot → Nat
  | .direct i => fs.numfrags (blksize fs ip i)
  | .indirect _ _ => fs.numfrags fs.bsize

/-- The last `k` digits of `n` to the base `N`, the last one first. -/
def digits (N : Nat) : Nat → Nat → List Nat
  | 0, _ => []
  | k + 1, n => n % N :: digits N k (n / N)

/-- The slot of the logical block `bn`, if there is one. -/
def dataSlot (fs : Fs) (bn : Int) : Option Slot :=
  if bn < 0 then none
  else if bn < NDADDR then some (.direct bn.toNat)
  else
    match level fs NIADDR 1 (bn - NDADDR) with
    | none => none
    | some (j, _, r) => some (.indirect (NIADDR - j) (digits fs.NINDIR (NIADDR + 1 - j) r.toNat))

/-! ## Sizes -/

theorem Fs.NINDIR_eq (fs : Fs) :
    fs.NINDIR = 1024 ∨ fs.NINDIR = 2048 ∨ fs.NINDIR = 4096 ∨ fs.NINDIR = 8192 ∨ fs.NINDIR = 16384 := by
  unfold Fs.NINDIR
  rcases fs.bsize_pow with h | h | h | h | h <;> simp [h]

theorem Fs.NINDIR_pos (fs : Fs) : 0 < fs.NINDIR := by
  rcases fs.NINDIR_eq with h | h | h | h | h <;> omega

theorem Fs.bsize_bounds (fs : Fs) : 4096 ≤ fs.bsize ∧ fs.bsize ≤ 65536 := by
  rcases fs.bsize_pow with h | h | h | h | h <;> omega

theorem Fs.fsize_pos (fs : Fs) : 0 < fs.fsize := by
  have := fs.bsize_bounds
  rcases fs.frags with h | h | h | h <;> omega

/-- The blocks below those of the level `l` that are reached through an indirect block. -/
def levelBase (N : Nat) : Nat → Nat
  | 0 => 0
  | 1 => N
  | _ => N + N ^ 2

theorem int32_small {n : Int} (h : -2 ^ 31 ≤ n) (h' : n < 2 ^ 31) : int32 n = n := by
  unfold int32
  rw [Int.bmod_eq_of_le] <;> omega

/-- The products of the loop: the third one wraps to 0 for blocks of more than 4096 bytes. -/
theorem Fs.products (fs : Fs) :
    int32 (1 * fs.NINDIR) = fs.NINDIR ∧ int32 (fs.NINDIR * fs.NINDIR) = (fs.NINDIR ^ 2 : Nat) ∧
      (int32 ((fs.NINDIR ^ 2 : Nat) * fs.NINDIR) = (fs.NINDIR ^ 3 : Nat) ∧ fs.NINDIR = 1024 ∨
        int32 ((fs.NINDIR ^ 2 : Nat) * fs.NINDIR) = 0) := by
  rcases fs.NINDIR_eq with h | h | h | h | h <;> rw [h] <;> decide

/-- The loop ends at the level of the block, with the number of the block in it; the last block has a successor. -/
theorem level_some {n : Int} (hn : 0 ≤ n) (hn' : n < 2 ^ 31) {j : Nat} {sh r : Int} (h : level fs NIADDR 1 n = some (j, sh, r)) :
    ∃ l < NIADDR, ∃ m : Nat, j = NIADDR - l ∧ sh = (fs.NINDIR ^ (l + 1) : Nat) ∧ r = m ∧ m < fs.NINDIR ^ (l + 1) ∧
      n = (m + levelBase fs.NINDIR l : Nat) ∧ n + NDADDR + 1 < 2 ^ 31 := by
  obtain ⟨h1, h2, h3⟩ := fs.products
  have hpos := fs.NINDIR_pos
  have hle : fs.NINDIR ≤ 16384 := by
    rcases fs.NINDIR_eq with h | h | h | h | h <;> omega
  have hsq : fs.NINDIR ^ 2 ≤ 16384 ^ 2 := Nat.pow_le_pow_left hle 2
  lift n to Nat using hn
  rw [NIADDR, level] at h
  simp only [h1] at h
  split_ifs at h with hs1
  · simp only [Option.some.injEq, Prod.mk.injEq] at h
    obtain ⟨rfl, rfl, rfl⟩ := h
    exact ⟨0, by decide, n, rfl, by simp, rfl, by simpa using hs1, by simp [levelBase], by unfold NDADDR; omega⟩
  have hsub1 : int32 (n - fs.NINDIR) = ((n - fs.NINDIR : Nat) : Int) := by
    rw [int32_small] <;> omega
  rw [level, hsub1] at h
  simp only [h2] at h
  split_ifs at h with hs2
  · simp only [Option.some.injEq, Prod.mk.injEq] at h
    obtain ⟨rfl, rfl, rfl⟩ := h
    refine ⟨1, by decide, n - fs.NINDIR, rfl, rfl, rfl, by exact_mod_cast hs2, ?_⟩
    unfold NDADDR
    simp only [levelBase]
    omega
  have hsub2 : int32 ((n - fs.NINDIR : Nat) - (fs.NINDIR ^ 2 : Nat)) = ((n - fs.NINDIR - fs.NINDIR ^ 2 : Nat) : Int) := by
    rw [int32_small] <;> omega
  rw [level, hsub2] at h
  split_ifs at h with hs3
  · simp only [Option.some.injEq, Prod.mk.injEq] at h
    obtain ⟨rfl, rfl, rfl⟩ := h
    rcases h3 with ⟨h3, hN⟩ | h3
    · rw [h3] at hs3 ⊢
      refine ⟨2, by decide, n - fs.NINDIR - fs.NINDIR ^ 2, rfl, rfl, rfl, by exact_mod_cast hs3, ?_⟩
      unfold NDADDR
      rw [hN] at hs1 hs2 hs3 ⊢
      simp only [levelBase]
      omega
    · rw [h3] at hs3
      omega
  · simp [level] at h

/-! ## Paths -/

theorem digits_length (N k n : Nat) : (digits N k n).length = k := by
  induction k generalizing n with
  | zero => rfl
  | succ k ih => simp [digits, ih]

theorem digits_append (N k m n : Nat) : digits N (k + m) n = digits N k n ++ digits N m (n / N ^ k) := by
  induction k generalizing n with
  | zero => simp [digits]
  | succ k ih =>
    rw [show k + 1 + m = k + m + 1 by omega, digits, ih, digits, Nat.div_div_eq_div_mul, ← pow_succ']
    rfl

theorem digits_inj {N k n : Nat} (hm : m < N ^ k) (hn : n < N ^ k) (h : digits N k m = digits N k n) : m = n := by
  induction k generalizing m n with
  | zero =>
    simp only [pow_zero] at hm hn
    omega
  | succ k ih =>
    simp only [digits, List.cons.injEq] at h
    rw [pow_succ'] at hm hn
    have hdiv := ih (Nat.div_lt_of_lt_mul hm) (Nat.div_lt_of_lt_mul hn) h.2
    rw [← Nat.div_add_mod m N, ← Nat.div_add_mod n N, hdiv, h.1]

theorem node_append_zero {ptrs : Nat → Nat → Nat} (h : node ptrs r p = 0) (q : List Nat) :
    node ptrs r (q ++ p) = 0 := by
  induction q with
  | nil => exact h
  | cons i q ih => simp [node, ih]

theorem node_cons {ptrs : Nat → Nat → Nat} (h : node ptrs r p ≠ 0) (i : Nat) :
    node ptrs r (i :: p) = ptrs (node ptrs r p) i := by
  simp [node, h]

/-- The slot of a block: a direct one, or one at the end of a path of its level. -/
theorem dataSlot_cases {x : Slot} (hbn : bn < 2 ^ 31) (h : dataSlot fs bn = some x) :
    (∃ i < NDADDR, bn = (i : Nat) ∧ x = .direct i) ∨
      ∃ l < NIADDR, ∃ m < fs.NINDIR ^ (l + 1), bn = (NDADDR + levelBase fs.NINDIR l + m : Nat) ∧ bn + 1 < 2 ^ 31 ∧
        level fs NIADDR 1 (bn - NDADDR) = some (NIADDR - l, ((fs.NINDIR ^ (l + 1) : Nat) : Int), (m : Int)) ∧
        x = .indirect l (digits fs.NINDIR (l + 1) m) := by
  unfold dataSlot at h
  split_ifs at h with hneg hdir
  · left
    refine ⟨bn.toNat, by omega, by omega, ?_⟩
    simpa using h.symm
  · right
    split at h
    · cases h
    · rename_i j sh r hl
      obtain ⟨l, hlt, m, rfl, rfl, rfl, hm, hn, hmax⟩ := level_some (by omega) (by omega) hl
      have hj : NIADDR - (NIADDR - l) = l ∧ NIADDR + 1 - (NIADDR - l) = l + 1 := by
        omega
      refine ⟨l, hlt, m, hm, by omega, by omega, hl, ?_⟩
      rw [hj.1, hj.2] at h
      simpa using h.symm

theorem dataSlot_inj {bn' : Int} {x : Slot} (hbn : bn < 2 ^ 31) (hbn' : bn' < 2 ^ 31) (h : dataSlot fs bn = some x)
    (h' : dataSlot fs bn' = some x) : bn = bn' := by
  rcases dataSlot_cases hbn h with ⟨i, -, rfl, rfl⟩ | ⟨l, -, m, hm, rfl, -, -, rfl⟩
  · rcases dataSlot_cases hbn' h' with ⟨i', -, rfl, hx⟩ | ⟨l, -, m, hm, rfl, -, -, hx⟩
    · cases hx
      rfl
    · cases hx
  · rcases dataSlot_cases hbn' h' with ⟨i', -, rfl, hx⟩ | ⟨l', -, m', hm', rfl, -, -, hx⟩
    · cases hx
    · simp only [Slot.indirect.injEq] at hx
      obtain ⟨rfl, hd⟩ := hx
      rw [digits_inj hm hm' hd]

/-- The address of a logical block, 0 for a hole. -/
def dataAddr (fs : Fs) (s : State) (bn : Int) : Nat :=
  match dataSlot fs bn with
  | none => 0
  | some x => addr s x

/-- A disk address as `bmap` returns it. -/
def Fs.blkno (fs : Fs) (a : Nat) : Int := if a = 0 then -1 else fs.toDb a

theorem addr_indirect (hl : l < NIADDR) (hp : p.length ≤ l + 1) :
    addr s (.indirect l p) = node s.ptrs (s.ip.ib l) p := by
  simp [addr, slotAddr, hl, hp]

/-! ## What `bmap` returns -/

/-- The index in the indirect block at the path `digits (l + 1 - k) (m / N ^ k)`. -/
theorem index_eq (N m k : Nat) : (((m : Int) / (N ^ k : Nat)) % N).toNat = m / N ^ k % N := by
  rw [← Int.natCast_div, ← Int.natCast_mod, Int.toNat_natCast]

theorem bmapLevels_eq (fs : Fs) {k j : Nat} (hnb : node s.ptrs r (digits fs.NINDIR j (m / fs.NINDIR ^ k)) ≠ 0) :
    bmapLevels fs (fun _ => true) s m k (fs.NINDIR ^ k : Nat) (node s.ptrs r (digits fs.NINDIR j (m / fs.NINDIR ^ k))) =
      .ok (fs.blkno (node s.ptrs r (digits fs.NINDIR (k + j) m))) := by
  induction k generalizing j with
  | zero =>
    simp only [pow_zero, Nat.div_one] at hnb ⊢
    simp [bmapLevels, Fs.blkno, hnb]
  | succ k ih =>
    have hsh : ((fs.NINDIR ^ (k + 1) : Nat) : Int) / fs.NINDIR = (fs.NINDIR ^ k : Nat) := by
      rw [← Int.natCast_div, pow_succ, Nat.mul_div_cancel _ fs.NINDIR_pos]
    have hpath : digits fs.NINDIR (j + 1) (m / fs.NINDIR ^ k) =
        m / fs.NINDIR ^ k % fs.NINDIR :: digits fs.NINDIR j (m / fs.NINDIR ^ (k + 1)) := by
      rw [digits, Nat.div_div_eq_div_mul, ← pow_succ]
    have hnext : s.ptrs (node s.ptrs r (digits fs.NINDIR j (m / fs.NINDIR ^ (k + 1)))) (m / fs.NINDIR ^ k % fs.NINDIR) =
        node s.ptrs r (digits fs.NINDIR (j + 1) (m / fs.NINDIR ^ k)) := by
      rw [hpath, node_cons hnb]
    simp only [bmapLevels, if_true, hsh, index_eq, hnext]
    split_ifs with h0
    · rw [show k + 1 + j = k + (j + 1) by omega, digits_append]
      simp [Fs.blkno, node_append_zero h0]
    · rw [ih h0, show k + 1 + j = k + (j + 1) by omega]

theorem bmap_direct (hi : i < NDADDR) : bmap fs (fun _ => true) s i = .ok (fs.blkno (addr s (.direct i))) := by
  have hlt : ((i : Nat) : Int) < NDADDR := by
    exact_mod_cast hi
  have hneg : ¬((i : Nat) : Int) < 0 := by
    omega
  have ha : addr s (.direct i) = s.ip.db i := if_pos hi
  rw [bmap, if_neg hneg, if_pos hlt, Int.toNat_natCast, ha, Fs.blkno]
  by_cases h0 : s.ip.db i = 0
  · simp only [h0, if_true]
  · simp only [h0, if_false]

theorem bmap_indirect (hl : l < NIADDR) (hbn : bn = (NDADDR + levelBase fs.NINDIR l + m : Nat))
    (hlev : level fs NIADDR 1 (bn - NDADDR) = some (NIADDR - l, ((fs.NINDIR ^ (l + 1) : Nat) : Int), (m : Int))) :
    bmap fs (fun _ => true) s bn = .ok (fs.blkno (addr s (.indirect l (digits fs.NINDIR (l + 1) m)))) := by
  have hneg : ¬bn < 0 := by
    omega
  have hdir : ¬bn < NDADDR := by
    omega
  have hj : NIADDR - (NIADDR - l) = l ∧ NIADDR + 1 - (NIADDR - l) = l + 1 := by
    omega
  rw [addr_indirect hl (by simp [digits_length])]
  simp only [bmap, hneg, hdir, if_false, hlev, hj.1, hj.2]
  split_ifs with h0
  · have hzero := node_append_zero (show node s.ptrs (s.ip.ib l) [] = 0 from h0) (digits fs.NINDIR (l + 1) m)
    rw [List.append_nil] at hzero
    simp [Fs.blkno, hzero]
  · have hroot := bmapLevels_eq fs (s := s) (m := m) (k := l + 1) (j := 0) (r := s.ip.ib l)
    simp only [digits, node] at hroot
    exact hroot h0

/-- `bmap` returns the address of the block's slot, and `EFBIG` if there is none. -/
theorem bmap_eq (hbn : bn < 2 ^ 31) :
    bmap fs (fun _ => true) s bn = if dataSlot fs bn = none then .error .efbig else .ok (fs.blkno (dataAddr fs s bn)) := by
  cases hx : dataSlot fs bn with
  | none =>
    rw [if_pos rfl]
    unfold dataSlot at hx
    split_ifs at hx with hneg hdir
    · rw [bmap, if_pos hneg]
    · rw [bmap, if_neg hneg, if_neg hdir]
      cases hlev : level fs NIADDR 1 (bn - NDADDR) with
      | none => rfl
      | some x =>
        rw [hlev] at hx
        cases hx
  | some x =>
    simp only [dataAddr, hx, reduceCtorEq, if_false]
    rcases dataSlot_cases hbn hx with ⟨i, hi, rfl, rfl⟩ | ⟨l, hl, m, hm, hbn', -, hlev, rfl⟩
    · exact bmap_direct hi
    · exact bmap_indirect hl hbn' hlev

/-! ## One address is stored -/

@[simp] theorem addr_setSize (n : Nat) : addr (setSize n s) = addr s := rfl

@[simp] theorem addr_setBuf (lbn : Nat) (b : Buf) : addr (setBuf lbn b s) = addr s := rfl

theorem addr_setDb (hi : i < NDADDR) (a : Nat) : addr (setDb i a s) = Function.update (addr s) (.direct i) a := by
  funext x
  cases x with
  | direct k =>
    by_cases hk : k = i
    · subst hk
      simp [addr, slotAddr, setDb, hi]
    · simp [addr, slotAddr, setDb, hk]
  | indirect l p => simp [addr, slotAddr, setDb]

/-- The new address of an indirect block of the inode, in which all addresses are 0. -/
theorem addr_setIb (hl : l < NIADDR) (hold : s.ip.ib l = 0) (hclr : s.ptrs a = fun _ => 0) :
    addr (setIb l a s) = Function.update (addr s) (.indirect l []) a := by
  funext x
  cases x with
  | direct k => simp [addr, slotAddr, setIb]
  | indirect k p =>
    by_cases hk : k = l
    · subst hk
      have hnode : node s.ptrs a p = if p = [] then a else 0 := by
        induction p with
        | nil => rfl
        | cons i p ih =>
          by_cases hp : p = []
          · subst hp
            simp [node, hclr]
          · simp [node, ih, hp]
      have hzero : node s.ptrs 0 p = 0 := by
        simpa using node_append_zero (rfl : node s.ptrs 0 [] = 0) p
      by_cases hp : p = []
      · subst hp
        simp [addr, slotAddr, setIb, hl, node]
      · simp [addr, slotAddr, setIb, hnode, hp, hold, hzero]
    · simp [addr, slotAddr, setIb, hk]

/-- No slot above the lowest level holds `c`, but that at `p`. -/
def OnlyAt (s : State) (c l : Nat) (p : List Nat) : Prop :=
  ∀ l' p', l' < NIADDR → p'.length ≤ l' → node s.ptrs (s.ip.ib l') p' = c → l' = l ∧ p' = p

/-- The indirect block `a`, which is in no slot, is cleared. -/
theorem addr_clrPtrs (hfree : ∀ x, addr s x ≠ 0 → addr s x ≠ a) : addr (clrPtrs a s) = addr s := by
  funext x
  cases x with
  | direct k => rfl
  | indirect l p =>
    by_cases hv : l < NIADDR ∧ p.length ≤ l + 1
    · have hnode : ∀ q : List Nat, q.length ≤ l + 1 → node (clrPtrs a s).ptrs (s.ip.ib l) q = node s.ptrs (s.ip.ib l) q := by
        intro q hq
        induction q with
        | nil => rfl
        | cons i q ih =>
          simp only [List.length_cons] at hq
          have hne : node s.ptrs (s.ip.ib l) q ≠ 0 → node s.ptrs (s.ip.ib l) q ≠ a := by
            rw [← addr_indirect hv.1 (by omega : q.length ≤ l + 1)]
            exact hfree _
          rw [node, node, ih (by omega)]
          by_cases h0 : node s.ptrs (s.ip.ib l) q = 0
          · simp [h0]
          · simp [clrPtrs, h0, hne h0]
      rw [addr_indirect (s := clrPtrs a s) hv.1 hv.2, addr_indirect hv.1 hv.2]
      exact hnode p hv.2
    · simp [addr, slotAddr, hv]

/-- An entry of an indirect block that was 0 is set to `a`: to an indirect block in which all addresses are 0, or at
the lowest level. -/
theorem addr_setPtr {c : Nat} (hl : l < NIADDR) (hp : p.length ≤ l) (hc : node s.ptrs (s.ip.ib l) p = c) (hc0 : c ≠ 0)
    (honly : OnlyAt s c l p) (hold : s.ptrs c i = 0) (hclr : p.length + 1 ≤ l → s.ptrs a = (fun _ => 0) ∧ a ≠ c) :
    addr (setPtr c i a s) = Function.update (addr s) (.indirect l (i :: p)) a := by
  have hnode : ∀ k < NIADDR, ∀ q : List Nat, q.length ≤ k + 1 → node (setPtr c i a s).ptrs (s.ip.ib k) q =
      if k = l ∧ q = i :: p then a else node s.ptrs (s.ip.ib k) q := by
    intro k hk q hq
    induction q with
    | nil => simp [node]
    | cons e q ih =>
      simp only [List.length_cons] at hq
      rw [node, ih (by omega)]
      by_cases hself : k = l ∧ q = i :: p
      · -- below the new block, which has no entries yet
        obtain ⟨rfl, rfl⟩ := hself
        simp only [List.length_cons] at hq
        obtain ⟨hz, hne⟩ := hclr (by omega)
        simp [setPtr, hne, hz, node, hc, hc0, hold]
      · rw [if_neg hself]
        by_cases h0 : node s.ptrs (s.ip.ib k) q = 0
        · have hne : ¬(k = l ∧ e :: q = i :: p) := by
            rintro ⟨rfl, he⟩
            simp only [List.cons.injEq] at he
            rw [he.2] at h0
            omega
          rw [if_neg hne, node, if_pos h0, if_pos h0]
        · rw [node, if_neg h0, if_neg h0]
          by_cases hcq : node s.ptrs (s.ip.ib k) q = c
          · obtain ⟨rfl, rfl⟩ := honly k q hk (by omega) hcq
            by_cases he : e = i
            · simp [setPtr, hcq, he]
            · simp [setPtr, hcq, he]
          · have hne : ¬(k = l ∧ e :: q = i :: p) := by
              rintro ⟨rfl, he⟩
              simp only [List.cons.injEq] at he
              rw [he.2] at hcq
              exact hcq hc
            rw [if_neg hne]
            simp [setPtr, hcq]
  funext x
  cases x with
  | direct k => simp [addr, slotAddr, setPtr]
  | indirect k q =>
    by_cases hv : k < NIADDR ∧ q.length ≤ k + 1
    · rw [addr_indirect (s := setPtr c i a s) hv.1 hv.2]
      rw [show (setPtr c i a s).ip.ib k = s.ip.ib k from rfl, hnode k hv.1 q hv.2]
      by_cases he : k = l ∧ q = i :: p
      · obtain ⟨rfl, rfl⟩ := he
        simp
      · have hne : Slot.indirect k q ≠ .indirect l (i :: p) := by
          simpa using he
        rw [if_neg he, Function.update_of_ne hne, addr_indirect hv.1 hv.2]
    · have hne : Slot.indirect k q ≠ .indirect l (i :: p) := by
        rintro h
        simp only [Slot.indirect.injEq] at h
        obtain ⟨rfl, rfl⟩ := h
        simp only [List.length_cons] at hv
        omega
      rw [Function.update_of_ne hne]
      simp [addr, slotAddr, hv]

end BsdKernel.UfsBmap
