import BsdKernel.Ufs.ItruncFree
/-!
# Truncation of a file

What `itrunc` of `ufs/ufs_inode.c` leaves of a file, where all reads succeed, and
the pieces it frees. The sum `length + fs_bsize - 1` is one of an `u_long`, and
the old size is kept in an `int` while the direct blocks are freed.

`itrunc_iff` says that exactly the tail is freed, with the right sizes, if the
sum does not wrap and the `int` gives the direct blocks that are freed or cut the
sizes they have.
-/

namespace BsdKernel.UfsTrunc

open BsdKernel.Lib BsdKernel.UfsBmap

variable {fs : Fs} {env : Env} {s s' s₀ : State} {length : Nat} {w w' : Work}
variable {l i m : Nat} {x : Slot} {tip : Inode}

/-! ## The cut -/

/-- Without a wrap, the blocks up to the last one are those that begin before the end. -/
theorem le_lastBlock (h : length + fs.bsize ≤ 2 ^ 32) (m : Nat) : (m : Int) ≤ lastBlock fs length ↔ m * fs.bsize < length := by
  have hpos := fs.bsize_pos
  have hsmall : (length + fs.bsize - 1) % 2 ^ 32 = length + fs.bsize - 1 := Nat.mod_eq_of_lt (by omega)
  have hle := Nat.le_div_iff_mul_le hpos (x := m + 1) (y := length + fs.bsize - 1)
  rw [Nat.add_mul, Nat.one_mul] at hle
  rw [lastBlock, hsmall]
  omega

/-- With a wrap there is no last block. -/
theorem lastBlock_wraps (h : 2 ^ 32 < length + fs.bsize) (hlt : length < 2 ^ 32) : lastBlock fs length = -1 := by
  have hb := fs.bsize_bounds
  have hmod : (length + fs.bsize - 1) % 2 ^ 32 < fs.bsize := by
    rw [Nat.mod_eq_sub_mod (by omega), Nat.mod_eq_of_lt (by omega)]
    omega
  rw [lastBlock, Nat.div_eq_of_lt hmod]
  rfl

theorem lastIBlock_eq (hl : l < NIADDR) :
    lastIBlock fs length l = lastBlock fs length - NDADDR - levelBase fs.NINDIR l := by
  unfold NIADDR at hl
  rcases (by omega : l = 0 ∨ l = 1 ∨ l = 2) with rfl | rfl | rfl
  · simp [lastIBlock, levelBase]
  · simp [lastIBlock, levelBase]
  · simp only [lastIBlock, levelBase]
    push_cast
    ring

/-- The number of the last block of each level, or -1. -/
def lastiblock (fs : Fs) (length l : Nat) : Int := max (-1) (lastIBlock fs length l)

theorem lastiblock_neg : lastiblock fs length l < 0 ↔ lastIBlock fs length l < 0 := by
  unfold lastiblock
  omega

theorem keeps_iff (hl : l < NIADDR) (q : List Nat) :
    Keeps fs.NINDIR l (lastiblock fs length l) q ↔ (first fs (.indirect l q) : Int) ≤ lastBlock fs length := by
  rw [Keeps, lastiblock, lastIBlock_eq hl, first]
  push_cast
  omega

theorem lastiblock_whole (l l' : Nat) (hll : l < l') (hl' : l' < NIADDR) (hge : 0 ≤ lastiblock fs length l') :
    ((fs.NINDIR ^ (l + 1) : Nat) : Int) ≤ lastiblock fs length l + 1 := by
  have hbase : levelBase fs.NINDIR l + fs.NINDIR ^ (l + 1) ≤ levelBase fs.NINDIR l' := by
    unfold NIADDR at hl'
    rcases (by omega : l = 0 ∧ l' = 1 ∨ l = 0 ∧ l' = 2 ∨ l = 1 ∧ l' = 2) with ⟨rfl, rfl⟩ | ⟨rfl, rfl⟩ | ⟨rfl, rfl⟩ <;>
      simp [levelBase]
  unfold lastiblock at hge ⊢
  rw [lastIBlock_eq hl'] at hge
  rw [lastIBlock_eq (hll.trans hl')]
  omega

theorem lastiblock_direct : (∀ l < NIADDR, lastiblock fs length l < 0) ↔ lastBlock fs length < NDADDR := by
  constructor
  · intro h
    have := h 0 (by decide)
    rw [lastiblock, lastIBlock_eq (by decide)] at this
    simp only [levelBase] at this
    omega
  · intro h l hl
    rw [lastiblock, lastIBlock_eq hl]
    omega

/-! ## The addresses that are left -/

/-- A path below an indirect address leads to the same block if it is kept, and else to none. -/
theorem node_pruned {P : Nat → Nat → Nat} {ib : Nat → Nat} {lastiblock : Nat → Int} {n : Nat}
    (hp : ForestPruned fs P ib lastiblock n w w') (hl : l < n) (q : List Nat) (hq : q.length ≤ l + 1) :
    node w'.ptrs (if lastiblock l < 0 then 0 else ib l) q = if Keeps fs.NINDIR l (lastiblock l) q then node P (ib l) q else 0 := by
  induction q with
  | nil =>
    by_cases hneg : lastiblock l < 0
    · rw [if_pos hneg, if_neg (by rw [keeps_root]; omega)]
      rfl
    · rw [if_neg hneg, if_pos (by rw [keeps_root]; omega)]
      rfl
  | cons i q ih =>
    simp only [List.length_cons] at hq
    rw [node, ih (by omega)]
    by_cases hkeep : Keeps fs.NINDIR l (lastiblock l) q
    · rw [if_pos hkeep]
      by_cases hzero : node P (ib l) q = 0
      · simp [node, hzero]
      · rw [if_neg hzero, node_cons hzero]
        exact hp.kept l hl q (by omega) hzero hkeep i
    · have hcons : ¬Keeps fs.NINDIR l (lastiblock l) (i :: q) := by
        have := firstBelow_cons (N := fs.NINDIR) (i := i) (by omega : q.length ≤ l)
        unfold Keeps at hkeep ⊢
        omega
      rw [if_neg hkeep, if_pos rfl, if_neg hcons]

/-- The slots of the blocks up to the last one have the addresses they had, and the others none. -/
theorem slotAddr_cut (hp : ForestPruned fs s.ptrs s.ip.ib (lastiblock fs length) NIADDR w w') (x : Slot) :
    slotAddr (s.ip.cut fs length) w'.ptrs x = if (first fs x : Int) ≤ lastBlock fs length then addr s x else 0 := by
  cases x with
  | direct i =>
    by_cases hi : i < NDADDR
    · simp only [slotAddr, addr, Inode.cut, hi, if_true, true_and, first]
      by_cases hlast : (i : Int) ≤ lastBlock fs length
      · rw [if_pos hlast, if_neg (by omega)]
      · rw [if_neg hlast, if_pos (by omega)]
    · simp [slotAddr, addr, hi]
  | indirect l q =>
    by_cases hv : l < NIADDR ∧ q.length ≤ l + 1
    · have hib : (s.ip.cut fs length).ib l = if lastiblock fs length l < 0 then 0 else s.ip.ib l := by
        simp only [Inode.cut, hv.1, true_and, lastiblock_neg]
      rw [slotAddr, if_pos hv, hib, node_pruned hp hv.1 q hv.2, addr_indirect hv.1 hv.2]
      simp only [keeps_iff hv.1]
    · simp [slotAddr, addr, hv]

/-! ## The pieces that are freed -/

/-- The bytes of the piece in a slot. -/
def bytes (fs : Fs) (ip : Inode) : Slot → Nat
  | .direct i => blksize fs ip i
  | .indirect _ _ => fs.bsize

theorem len_eq (ip : Inode) (x : Slot) : len fs ip x = fs.numfrags (bytes fs ip x) := by
  cases x <;> rfl

theorem bytes_dvd (ip : Inode) (x : Slot) : fs.fsize ∣ bytes fs ip x := by
  cases x with
  | direct i => exact blksize_dvd ip i
  | indirect l q => exact fs.fsize_dvd

/-- The size that an `int` keeps gives no direct block more bytes than the size itself. -/
theorem tip_le (size : Nat) (ip : Inode) (i : Nat) :
    blksize fs (ip.tip size) i ≤ blksize fs { ip with size := size } i := by
  by_cases hfull : NDADDR ≤ i ∨ (i + 1) * fs.bsize ≤ size
  · have hmax : blksize fs { ip with size := size } i = fs.bsize := blksize_full hfull
    rw [hmax]
    exact blksize_le _ i
  · have hsmall : size < 2 ^ 31 := by
      have hb := fs.bsize_bounds
      have hi : (i + 1) * fs.bsize ≤ 12 * 65536 := by
        apply Nat.mul_le_mul _ hb.2
        unfold NDADDR at hfull
        omega
      omega
    have hint : int32 (size : Int) = size := int32_small (by omega) (by omega)
    have hsame : (int32 (size : Int) % 2 ^ 64).toNat = size := by
      rw [hint]
      omega
    rw [Inode.tip, hsame]

theorem Sized.pos (h : Regular fs s₀) (hlength : length < s₀.ip.size) (hs : Sized fs length s₀ s) (hx : addr s x ≠ 0) :
    0 < len fs s₀.ip x := by
  have hblock : 0 < fs.numfrags fs.bsize := fs.numfrags_pos (Nat.le_of_dvd fs.bsize_pos fs.fsize_dvd)
  cases x with
  | indirect l q => exact hblock
  | direct i =>
    rcases hs.same (.direct i) with hsame | ⟨-, -, -, hslot⟩
    · exact h.consistent.sound.pos _ (by rwa [← hsame])
    · have hi : i < NDADDR := by
        by_contra hge
        simp [addr, slotAddr, hge] at hx
      have hbound : length / fs.bsize < 2 ^ 31 := (Nat.div_le_div_right hlength.le).trans_lt h.consistent.shape.bound
      have hinj := dataSlot_inj (by exact_mod_cast hbound) (by unfold NDADDR at hi; omega) (hslot id) (direct_slot hi)
      have hlow : i * fs.bsize < s₀.ip.size := by
        have := Nat.div_mul_le_self length fs.bsize
        rw [show length / fs.bsize = i by omega] at this
        omega
      exact fs.numfrags_pos (blksize_pos hlow)

/-- What stays of the piece in a slot, in bytes. -/
def keptBytes (fs : Fs) (length : Nat) (ip : Inode) (x : Slot) : Nat :=
  if (first fs x : Int) ≤ lastBlock fs length then bytes fs { ip with size := length } x else 0

/-- The end of the piece in a slot, behind what stays. -/
def cutOff (fs : Fs) (length : Nat) (tip : Inode) (s : State) (x : Slot) : Nat × Nat :=
  (addr s x + fs.numfrags (keptBytes fs length tip x), bytes fs tip x - keptBytes fs length tip x)

/-- The piece in a slot is freed, or its end is. -/
def Loses (fs : Fs) (length : Nat) (tip : Inode) (s : State) (x : Slot) : Prop :=
  addr s x ≠ 0 ∧ (¬(first fs x : Int) ≤ lastBlock fs length ∨ keptBytes fs length tip x < bytes fs tip x)

theorem keptBytes_gone (h : ¬(first fs x : Int) ≤ lastBlock fs length) : keptBytes fs length tip x = 0 :=
  if_neg h

theorem numfrags_zero (fs : Fs) : fs.numfrags 0 = 0 := Nat.zero_div _

theorem cutOff_gone (h : ¬(first fs x : Int) ≤ lastBlock fs length) :
    cutOff fs length tip s x = (addr s x, bytes fs tip x) := by
  rw [cutOff, keptBytes_gone h, numfrags_zero, Nat.add_zero, Nat.sub_zero]

/-- Where there is a last block, the sum has not wrapped. -/
theorem no_wrap (hlt : length < 2 ^ 32) (hge : 0 ≤ lastBlock fs length) : length + fs.bsize ≤ 2 ^ 32 := by
  by_contra hwrap
  rw [lastBlock_wraps (by omega) hlt] at hge
  omega

/-- Only the last block loses its end. -/
theorem keptBytes_before (hlt : length < 2 ^ 32) (h : (i : Int) < lastBlock fs length) :
    keptBytes fs length tip (.direct i) = fs.bsize := by
  have hfits : length + fs.bsize ≤ 2 ^ 32 := no_wrap hlt (by omega)
  have hnext := (le_lastBlock hfits (i + 1)).1 (by omega)
  rw [keptBytes, if_pos (by rw [first]; omega), bytes, blksize_full (.inr hnext.le)]

section Slots
variable {tip : Inode} (hdb : tip.db = s.ip.db) {e : Nat × Nat}
include hdb

theorem loses_direct (hi : i < NDADDR) (hlast : lastBlock fs length < ((i : Nat) : Int)) (hne : tip.db i ≠ 0) :
    Loses fs length tip s (.direct i) ∧ (tip.db i, blksize fs tip i) = cutOff fs length tip s (.direct i) := by
  have hgone : ¬(first fs (.direct i) : Int) ≤ lastBlock fs length := by
    rw [first]
    omega
  rw [hdb] at hne ⊢
  rw [← addr_direct hi] at hne ⊢
  exact ⟨⟨hne, .inl hgone⟩, (cutOff_gone hgone).symm⟩

theorem loses_tail (he : Tail fs (lastBlock fs length) length tip e) :
    ∃ i < NDADDR, lastBlock fs length = ((i : Nat) : Int) ∧ Loses fs length tip s (.direct i) ∧
      e = cutOff fs length tip s (.direct i) := by
  obtain ⟨i, hlast, hne, hshort, rfl⟩ := he
  have hi : i < NDADDR := by
    by_contra hge
    rw [blksize_full (.inl (by omega)), blksize_full (.inl (by omega))] at hshort
    omega
  have hstays : (first fs (.direct i) : Int) ≤ lastBlock fs length := by
    rw [first]
    omega
  have hkept : keptBytes fs length tip (.direct i) = blksize fs { tip with size := length } i := if_pos hstays
  rw [hdb] at hne
  refine ⟨i, hi, hlast, ⟨by rwa [addr_direct hi], .inr (by rwa [hkept])⟩, ?_⟩
  rw [cutOff, hkept, addr_direct hi, hdb]
  rfl

omit hdb in
theorem loses_indirect (tip : Inode) (hl : l < NIADDR) {q : List Nat} (hq : q.length ≤ l + 1)
    (hnode : node s.ptrs (s.ip.ib l) q ≠ 0) (hkeep : ¬Keeps fs.NINDIR l (lastiblock fs length l) q) :
    Loses fs length tip s (.indirect l q) ∧
      (node s.ptrs (s.ip.ib l) q, fs.bsize) = cutOff fs length tip s (.indirect l q) := by
  rw [keeps_iff hl] at hkeep
  rw [← addr_indirect hl hq] at hnode ⊢
  exact ⟨⟨hnode, .inl hkeep⟩, (cutOff_gone hkeep).symm⟩

/-- The pieces that `itrunc` frees, by the slots they are in. -/
theorem loses_iff (hlt : length < 2 ^ 32) (e : Nat × Nat) :
    ((∃ l < NIADDR, ∃ q : List Nat, q.length ≤ l + 1 ∧ node s.ptrs (s.ip.ib l) q ≠ 0 ∧
        ¬Keeps fs.NINDIR l (lastiblock fs length l) q ∧ e = (node s.ptrs (s.ip.ib l) q, fs.bsize)) ∨
      (∃ i < NDADDR, lastBlock fs length < ((i : Nat) : Int) ∧ tip.db i ≠ 0 ∧ e = (tip.db i, blksize fs tip i)) ∨
      Tail fs (lastBlock fs length) length tip e) ↔
      ∃ x, Loses fs length tip s x ∧ e = cutOff fs length tip s x := by
  constructor
  · rintro (⟨l, hl, q, hq, hnode, hkeep, rfl⟩ | ⟨i, hi, hlast, hne, rfl⟩ | htail)
    · exact ⟨_, loses_indirect tip hl hq hnode hkeep⟩
    · exact ⟨_, loses_direct hdb hi hlast hne⟩
    · obtain ⟨i, -, -, hloses⟩ := loses_tail hdb htail
      exact ⟨_, hloses⟩
  · rintro ⟨x, ⟨hx, hloses⟩, rfl⟩
    cases x with
    | indirect l q =>
      have hv : l < NIADDR ∧ q.length ≤ l + 1 := by
        by_contra hno
        simp [addr, slotAddr, hno] at hx
      have hgone : ¬(first fs (.indirect l q) : Int) ≤ lastBlock fs length := by
        rcases hloses with hgone | hshort
        · exact hgone
        · intro hstays
          rw [keptBytes, if_pos hstays] at hshort
          exact absurd hshort (lt_irrefl _)
      refine .inl ⟨l, hv.1, q, hv.2, ?_, ?_, ?_⟩
      · rwa [← addr_indirect hv.1 hv.2]
      · rwa [keeps_iff hv.1]
      · rw [cutOff_gone hgone, addr_indirect hv.1 hv.2]
        rfl
    | direct i =>
      have hi : i < NDADDR := by
        by_contra hge
        simp [addr, slotAddr, hge] at hx
      rw [addr_direct hi, ← hdb] at hx
      by_cases hstays : (first fs (.direct i) : Int) ≤ lastBlock fs length
      · have hshort := hloses.resolve_left (not_not.2 hstays)
        have hlast : lastBlock fs length = i := by
          rw [first] at hstays
          by_contra hne
          rw [keptBytes_before hlt (by omega)] at hshort
          exact absurd hshort (not_lt.2 (blksize_le tip i))
        have hkept : keptBytes fs length tip (.direct i) = blksize fs { tip with size := length } i := if_pos hstays
        rw [hkept] at hshort
        refine .inr (.inr ⟨i, hlast, hx, hshort, ?_⟩)
        rw [cutOff, hkept, addr_direct hi, hdb]
        rfl
      · refine .inr (.inl ⟨i, hi, ?_, hx, ?_⟩)
        · rw [first] at hstays
          omega
        · rw [cutOff_gone hstays, addr_direct hi, hdb]
          rfl

end Slots

/-- The size that `tip` has while blocks are freed, and addresses. -/
structure IsTip (s₀ s : State) (tip : Inode) : Prop where
  size : tip.size = (s.ip.tip s₀.ip.size).size
  db : tip.db = s.ip.db

theorem isTip_tip (s₀ s : State) : IsTip s₀ s (s.ip.tip s₀.ip.size) := by
  generalize htip : s.ip.tip s₀.ip.size = tip
  exact ⟨by rw [htip], by rw [← htip, Inode.tip]⟩

theorem numfrags_lt {n : Nat} (hm : fs.fsize ∣ m) (hn : fs.fsize ∣ n) (h : m < n) : fs.numfrags m < fs.numfrags n := by
  obtain ⟨j, rfl⟩ := hm
  obtain ⟨k, rfl⟩ := hn
  unfold Fs.numfrags
  rw [Nat.mul_div_cancel_left _ fs.fsize_pos, Nat.mul_div_cancel_left _ fs.fsize_pos]
  exact lt_of_mul_lt_mul_left' h

theorem IsTip.bytes_le (ht : IsTip s₀ s tip) (x : Slot) : bytes fs tip x ≤ bytes fs s₀.ip x := by
  cases x with
  | direct i =>
    have hle : blksize fs (s.ip.tip s₀.ip.size) i ≤ blksize fs { s.ip with size := s₀.ip.size } i := tip_le s₀.ip.size s.ip i
    have hsize : blksize fs tip i = blksize fs (s.ip.tip s₀.ip.size) i := by simp only [blksize, ht.size]
    rw [bytes, hsize]
    exact hle
  | indirect l q => exact le_rfl

section Cut
variable {tip : Inode} {x y : Slot}

theorem keptBytes_dvd (length : Nat) (ip : Inode) (x : Slot) : fs.fsize ∣ keptBytes fs length ip x := by
  unfold keptBytes
  split_ifs
  · exact bytes_dvd _ x
  · exact dvd_zero _

theorem Loses.kept_le (h : Loses fs length tip s x) : keptBytes fs length tip x ≤ bytes fs tip x := by
  rcases h.2 with hgone | hshort
  · rw [keptBytes_gone hgone]
    exact Nat.zero_le _
  · exact hshort.le

theorem Loses.piece_subset (h : Loses fs length tip s x) (ht : IsTip s₀ s tip) :
    piece fs (cutOff fs length tip s x).1 (cutOff fs length tip s x).2 ⊆ extent (addr s) (len fs s₀.ip) x := by
  have hle : fs.numfrags (bytes fs tip x) ≤ fs.numfrags (bytes fs s₀.ip x) := fs.numfrags_mono (ht.bytes_le x)
  have hsub := fs.numfrags_sub (keptBytes_dvd length tip x) (bytes_dvd tip x)
  have hkept := fs.numfrags_mono h.kept_le
  apply Finset.Ico_subset_Ico
  · exact Nat.le_add_right _ _
  · rw [cutOff, hsub, len_eq]
    omega

theorem Loses.mem_extent (h : Loses fs length tip s x) (ht : bytes fs tip x ≤ bytes fs s₀.ip x) (hpos : 0 < len fs s₀.ip x) :
    (cutOff fs length tip s x).1 ∈ extent (addr s) (len fs s₀.ip) x := by
  rw [extent, Finset.mem_Ico, cutOff]
  refine ⟨Nat.le_add_right _ _, ?_⟩
  rcases h.2 with hgone | hshort
  · rw [keptBytes_gone hgone, numfrags_zero]
    omega
  · have hlt := numfrags_lt (keptBytes_dvd length tip x) (bytes_dvd tip x) hshort
    have hle : fs.numfrags (bytes fs tip x) ≤ fs.numfrags (bytes fs s₀.ip x) := fs.numfrags_mono ht
    rw [len_eq]
    omega

theorem cutOff_ne (h : Regular fs s₀) (hlength : length < s₀.ip.size) (hs : Sized fs length s₀ s) (ht : IsTip s₀ s tip)
    (hx : Loses fs length tip s x) (hy : Loses fs length tip s y) (hxy : x ≠ y) :
    (cutOff fs length tip s x).1 ≠ (cutOff fs length tip s y).1 := by
  intro heq
  have hdis := hs.extents.apart x y hxy hx.1 hy.1
  have hmem := hy.mem_extent (ht.bytes_le y) (hs.pos h hlength hy.1)
  rw [← heq] at hmem
  exact Finset.disjoint_left.1 hdis (hx.mem_extent (ht.bytes_le x) (hs.pos h hlength hx.1)) hmem

end Cut

/-- Pieces that are apart and handed out are no more sectors than what is handed out. -/
theorem sectors_le {log : List (Nat × Nat)} {held : Finset Nat}
    (hapart : log.Pairwise fun e e' => Disjoint (piece fs e.1 e.2) (piece fs e'.1 e'.2))
    (hin : ∀ e ∈ log, piece fs e.1 e.2 ⊆ held) (hdvd : ∀ e ∈ log, fs.fsize ∣ e.2) :
    sectors log ≤ btodb (held.card * fs.fsize) := by
  induction log generalizing held with
  | nil => simp [sectors]
  | cons e log ih =>
    obtain ⟨hfirst, hrest⟩ := List.pairwise_cons.1 hapart
    have hsub : piece fs e.1 e.2 ⊆ held := hin e (by simp)
    have hle : sectors log ≤ btodb ((held \ piece fs e.1 e.2).card * fs.fsize) := ih hrest
      (fun e' he' => Finset.subset_sdiff.2 ⟨hin e' (List.mem_cons_of_mem e he'), (hfirst e' he').symm⟩)
      fun e' he' => hdvd e' (List.mem_cons_of_mem e he')
    have hcard : (held \ piece fs e.1 e.2).card + fs.numfrags e.2 = held.card := by
      have := Finset.card_sdiff_add_card_eq_card hsub
      rwa [piece, Nat.card_Ico, Nat.add_sub_cancel_left] at this
    have hsize : e.2 = fs.numfrags e.2 * fs.fsize := (Nat.div_mul_cancel (hdvd e (by simp))).symm
    calc sectors (e :: log) = btodb e.2 + sectors log := by simp [sectors]
      _ ≤ btodb e.2 + btodb ((held \ piece fs e.1 e.2).card * fs.fsize) := Nat.add_le_add_left hle _
      _ = btodb (e.2 + (held \ piece fs e.1 e.2).card * fs.fsize) := (btodb_add (hdvd e (by simp))).symm
      _ = btodb (held.card * fs.fsize) := by
        rw [← hcard, Nat.add_mul, ← hsize, Nat.add_comm]

/-! ## The loops together -/

theorem Sized.forest (h : Regular fs s₀) (hlength : length < s₀.ip.size) (hs : Sized fs length s₀ s) :
    Forest s.ptrs s.ip.ib := by
  intro l l' q q' hl hl' hq hq' hnode heq
  rw [← addr_indirect hl hq] at hnode heq
  rw [← addr_indirect hl' hq'] at heq
  have hslot := hs.extents.inj hnode heq (hs.pos h hlength hnode) (hs.pos h hlength (by rwa [← heq]))
  simpa using hslot

theorem Sized.db_inj (h : Regular fs s₀) (hlength : length < s₀.ip.size) (hs : Sized fs length s₀ s) {j : Nat}
    (hi : i < NDADDR) (hj : j < NDADDR) (hne : s.ip.db i ≠ 0) (heq : s.ip.db i = s.ip.db j) : i = j := by
  rw [← addr_direct hi] at hne heq
  rw [← addr_direct hj] at heq
  have hslot := hs.extents.inj hne heq (hs.pos h hlength hne) (hs.pos h hlength (by rwa [← heq]))
  simpa using hslot

theorem tail_congr {tip' : Inode} {lastblock : Int} (hsize : tip'.size = tip.size)
    (hdb : ∀ i : Nat, lastblock = i → tip'.db i = tip.db i) (e : Nat × Nat) :
    Tail fs lastblock length tip' e ↔ Tail fs lastblock length tip e := by
  have hblk : ∀ i, blksize fs tip' i = blksize fs tip i := fun i => by simp only [blksize, hsize]
  have hblk' : ∀ i, blksize fs { tip' with size := length } i = blksize fs { tip with size := length } i := fun i => rfl
  constructor
  · rintro ⟨i, hi, hne, hshort, rfl⟩
    rw [hdb i hi, hblk, hblk'] at *
    exact ⟨i, hi, hne, hshort, rfl⟩
  · rintro ⟨i, hi, hne, hshort, rfl⟩
    refine ⟨i, hi, by rwa [hdb i hi], by rwa [hblk, hblk'], by rw [hdb i hi, hblk, hblk']⟩

theorem truncRest_ends (h : Regular fs s₀) (hlength : length < s₀.ip.size) (hlt : length < 2 ^ 32)
    (hs : Sized fs length s₀ s) (ht : IsTip s₀ s tip) {all : Bool} (hall : all = true ↔ lastBlock fs length < NDADDR)
    (w : Work) :
    Ends (truncRest fs length all tip) w fun r w' =>
      (∀ i < NDADDR, r.1.db i = (s.ip.cut fs length).db i) ∧ r.1.ib = tip.ib ∧ w'.released = w.released + r.2 ∧
        w'.ptrs = w.ptrs ∧
        Frees fs (fun e => (∃ i < NDADDR, lastBlock fs length < ((i : Nat) : Int) ∧ tip.db i ≠ 0 ∧
          e = (tip.db i, blksize fs tip i)) ∨ Tail fs (lastBlock fs length) length tip e) w w' := by
  have hcut : ∀ i < NDADDR, (if i < NDADDR ∧ lastBlock fs length < ((i : Nat) : Int) then 0 else tip.db i) =
      (s.ip.cut fs length).db i := fun i _ => by
    rw [ht.db]
    rfl
  cases all with
  | false =>
    have hge : (NDADDR : Int) ≤ lastBlock fs length := by
      by_contra hno
      exact absurd (hall.2 (by omega)) Bool.false_ne_true
    refine Ends.pure ⟨fun i hi => ?_, rfl, rfl, rfl, (Frees.refl w).congr fun e => ⟨False.elim, ?_⟩⟩
    · rw [← hcut i hi, if_neg (by omega)]
    · rintro (⟨i, hi, hlast, -⟩ | ⟨i, hlast, -, hshort, -⟩)
      · omega
      · rw [blksize_full (.inl (by omega)), blksize_full (.inl (by omega))] at hshort
        omega
  | true =>
    have hlast : ∀ i : Nat, lastBlock fs length = i → i * fs.bsize < length := fun i hi =>
      (le_lastBlock (no_wrap hlt (by omega)) i).1 hi.ge
    have hinj : ∀ i j, i < NDADDR → j < NDADDR → tip.db i ≠ 0 → tip.db i = tip.db j → i = j := by
      intro i j hi hj hne heq
      rw [ht.db] at hne heq
      exact hs.db_inj h hlength hi hj hne heq
    rw [truncRest, if_pos rfl]
    refine (truncDirect_ends (lastBlock fs length) NDADDR tip w hinj).bind ?_
    rintro ⟨tip', n⟩ w₁ ⟨rfl, hcount, hptrs, hfreed⟩
    refine (truncLast_ends hlast _ w₁).bind ?_
    rintro m w₂ ⟨hcount', hptrs', hfreed'⟩
    refine Ends.pure ⟨hcut, rfl, ?_, hptrs'.trans hptrs, ?_⟩
    · simp only at hcount ⊢
      omega
    · refine hfreed.trans (hfreed'.congr (tail_congr rfl fun i hi => if_neg (by omega))) ?_
      rintro _ _ ⟨i, hi, hlasti, hne, rfl⟩ htail
      obtain ⟨hloses, heq⟩ := loses_direct ht.db hi hlasti hne
      obtain ⟨j, -, hlastj, hloses', rfl⟩ := loses_tail ht.db htail
      rw [heq]
      refine cutOff_ne h hlength hs ht hloses hloses' fun hij => ?_
      cases hij
      omega

theorem Frees.same_ip {S : Nat × Nat → Prop} (h : Frees fs S w w') : w'.ip = w.ip ∧ w'.bufs = w.bufs ∧ w'.disk = w.disk := by
  obtain ⟨log, hstate, -⟩ := h
  rw [hstate]
  exact ⟨rfl, rfl, rfl⟩

/-- The file at the end, and the calls of `blkfree`. -/
structure Truncates (fs : Fs) (length : Nat) (s₀ s s' : State) : Prop where
  size : s'.ip.size = length
  addrs : ∀ x, addr s' x = if (first fs x : Int) ≤ lastBlock fs length then addr s x else 0
  bufs : s'.bufs = []
  disk : s'.disk = (vinvalbuf fs (length > 0) s).disk
  log : ∃ log, s'.freed = s.freed ++ log ∧ (log.map Prod.fst).Nodup ∧
    (∀ e, e ∈ log ↔ ∃ x, Loses fs length (s.ip.tip s₀.ip.size) s x ∧ e = cutOff fs length (s.ip.tip s₀.ip.size) s x) ∧
    s'.held = s.held \ pieces fs log ∧ s'.ip.blocks = max 0 (s.ip.blocks - sectors log)

theorem Ends.wp {α : Type} {c : Cmd State Stop α} {Q : α → Work → Prop} {R : α → State → Prop} {E : Stop → State → Prop}
    (h : Ends c w Q) (hq : ∀ a w', Q a w' → R a w'.toState) : c.wp R E w.toState := by
  obtain ⟨a, w', hc, hqa⟩ := h
  simp only [Cmd.wp, hc]
  exact hq a w' hqa

theorem bytes_congr {ip ip' : Inode} (h : ip'.size = ip.size) (x : Slot) : bytes fs ip' x = bytes fs ip x := by
  cases x with
  | direct i => simp only [bytes, blksize, h]
  | indirect l q => rfl

theorem cutOff_congr {tip' : Inode} (h : tip'.size = tip.size) (x : Slot) :
    (Loses fs length tip' s x ↔ Loses fs length tip s x) ∧ cutOff fs length tip' s x = cutOff fs length tip s x := by
  have hkept : keptBytes fs length tip' x = keptBytes fs length tip x := by
    unfold keptBytes
    have hbytes : bytes fs { tip' with size := length } x = bytes fs { tip with size := length } x := bytes_congr rfl x
    rw [hbytes]
  simp only [Loses, cutOff, hkept, bytes_congr h, and_self]

/-- What the three loops free is what the slots lose. -/
theorem freed_all (h : Regular fs s₀) (hlength : length < s₀.ip.size) (hlt : length < 2 ^ 32)
    (hs : Sized fs length s₀ s) (ht : IsTip s₀ s tip)
    (hindirect : Frees fs (fun e => ∃ l < NIADDR, ∃ q : List Nat, q.length ≤ l + 1 ∧ node s.ptrs (s.ip.ib l) q ≠ 0 ∧
      ¬Keeps fs.NINDIR l (lastiblock fs length l) q ∧ e = (node s.ptrs (s.ip.ib l) q, fs.bsize)) w w') {w'' : Work}
    (hrest : Frees fs (fun e => (∃ i < NDADDR, lastBlock fs length < ((i : Nat) : Int) ∧ tip.db i ≠ 0 ∧
      e = (tip.db i, blksize fs tip i)) ∨ Tail fs (lastBlock fs length) length tip e) w' w'') :
    Frees fs (fun e => ∃ x, Loses fs length tip s x ∧ e = cutOff fs length tip s x) w w'' := by
  refine (hindirect.trans hrest ?_).congr (loses_iff ht.db hlt)
  rintro _ _ ⟨l, hl, q, hq, hnode, hkeep, rfl⟩ (⟨i, hi, hlast, hne, rfl⟩ | htail)
  · obtain ⟨hloses, heq⟩ := loses_indirect tip hl hq hnode hkeep
    obtain ⟨hloses', heq'⟩ := loses_direct ht.db hi hlast hne
    rw [heq, heq']
    exact cutOff_ne h hlength hs ht hloses hloses' (by simp)
  · obtain ⟨hloses, heq⟩ := loses_indirect tip hl hq hnode hkeep
    obtain ⟨j, -, -, hloses', rfl⟩ := loses_tail ht.db htail
    rw [heq]
    exact cutOff_ne h hlength hs ht hloses hloses' (by simp)

/-- `itrunc` succeeds, or there is no room for the block in which the file is to end. -/
theorem itrunc_spec (h : Regular fs s₀) (hread : Reads env) (hlength : length < s₀.ip.size) (hlt : length < 2 ^ 32) :
    (itrunc fs env length).wp (fun _ s' => ∃ s, Sized fs length s₀ s ∧ Truncates fs length s₀ s s')
      (fun e _ => e.NoRoom ∧ length % fs.bsize ≠ 0 ∧ dataAddr fs s₀ (length / fs.bsize : Nat) = 0) s₀ := by
  have hsize := truncSize_spec h hread hlength hlt
  obtain ⟨c, hc⟩ : ∃ c, c = truncSize fs env length := ⟨_, rfl⟩
  unfold itrunc
  rw [← hc] at hsize ⊢
  rw [wp_bind, wp_get, if_neg (by omega), wp_bind]
  apply wp_mono hsize _ fun e _ he => he
  rintro u s hs
  simp only [wp_bind, wp_get, wp_modify]
  obtain ⟨tip, htip⟩ : ∃ tip, tip = s.ip.tip s₀.ip.size := ⟨_, rfl⟩
  have ht : IsTip s₀ s tip := ⟨by rw [htip], by rw [htip, Inode.tip]⟩
  have hib : tip.ib = s.ip.ib := by rw [htip, Inode.tip]
  rw [← htip]
  have hforest := hs.forest h hlength
  obtain ⟨w₀, hw₀⟩ : ∃ w : Work, w = ⟨vinvalbuf fs (length > 0) { s with ip := s.ip.cut fs length }, 0⟩ := ⟨_, rfl⟩
  have hi : ∀ l < NIADDR, Intact s.ptrs (l + 1) (s.ip.ib l) w₀ := by
    intro l _ q _ _
    rw [hw₀]
    rfl
  have hlast : ∀ l, -1 ≤ lastiblock fs length l := fun l => le_max_left _ _
  have hindirect := truncIndirect_ends hread hs.entries hforest hlast lastiblock_whole NIADDR le_rfl tip w₀
    (fun l _ => by rw [hib]) hi
  have hstart : vinvalbuf fs (length > 0) { s with ip := s.ip.cut fs length } = w₀.toState := by rw [hw₀]
  rw [hstart]
  refine hindirect.wp ?_
  rintro ⟨all, tip', r⟩ w₁ ⟨hall, rfl, herror, hcount, hpruned⟩
  rw [lastiblock_direct] at hall
  have ht' : IsTip s₀ s { tip with ib := fun l => if l < NIADDR ∧ lastiblock fs length l < 0 then 0 else tip.ib l } :=
    ⟨ht.size, ht.db⟩
  refine (truncRest_ends h hlength hlt hs ht' hall w₁).wp ?_
  rintro ⟨tip'', n⟩ w₂ ⟨hdb, hib', hcount', hptrs, hfreed⟩
  simp only at herror hcount hcount' hdb hib'
  have hfrees := freed_all h hlength hlt hs ht' hpruned.freed hfreed
  obtain ⟨hip, hbufs, hdisk⟩ := hfrees.same_ip
  have hcut : w₂.ip = s.ip.cut fs length := by
    rw [hip, hw₀]
    rfl
  simp only [wp_ite, wp_fail, wp_bind, wp_modify]
  refine ⟨?_, fun _ => ⟨?_, fun _ => ?_⟩⟩
  · rintro ⟨l, hl, hne⟩
    refine absurd ?_ hne
    rw [hib', hcut, hib]
    simp only [Inode.cut, lastiblock_neg]
  · rintro ⟨i, hi, hne⟩
    exact absurd (by rw [hdb i hi, hcut]) hne
  · rw [herror]
    refine ⟨s, hs, ?_⟩
    obtain ⟨log, hstate, hnodup, hmem, hsectors⟩ := hfrees
    have hreleased : r.count + n = sectors log := by
      rw [hcount', hcount, hw₀] at hsectors
      omega
    refine ⟨?_, fun x => ?_, ?_, ?_, log, ?_, hnodup, fun e => ?_, ?_, ?_⟩
    · rw [releaseBlocks, hcut]
      rfl
    · rw [← slotAddr_cut hpruned x, ← hptrs, ← hcut]
      cases x <;> rfl
    · rw [releaseBlocks, hbufs, hw₀]
      rfl
    · rw [releaseBlocks, hdisk, hw₀]
      rfl
    · rw [releaseBlocks, hstate, hw₀]
      rfl
    · rw [hmem]
      have hsize : ({ tip with ib := fun l => if l < NIADDR ∧ lastiblock fs length l < 0 then 0 else tip.ib l } : Inode).size =
          (s.ip.tip s₀.ip.size).size := ht.size
      simp only [(cutOff_congr hsize _).1, (cutOff_congr hsize _).2]
    · rw [releaseBlocks, hstate, hw₀]
      rfl
    · rw [releaseBlocks, hreleased, hcut]
      rfl

/-! ## Exactly the tail -/

/-- A piece of the file `s` that is no longer reachable in `s'`: a block, or the end of one. -/
def Unreachable (fs : Fs) (s s' : State) (e : Nat × Nat) : Prop :=
  ∃ x, addr s x ≠ 0 ∧ addr s' x = 0 ∧ e = (addr s x, bytes fs s.ip x) ∨
    addr s' x ≠ 0 ∧ bytes fs s'.ip x < bytes fs s.ip x ∧
      e = (addr s' x + fs.numfrags (bytes fs s'.ip x), bytes fs s.ip x - bytes fs s'.ip x)

/-- The file `s` is cut to `length` bytes, and exactly the tail is freed. What it gets for the block in which `length` is,
if that is a hole, is `new`. -/
structure Truncated (fs : Fs) (length : Nat) (s s' : State) : Prop where
  size : s'.ip.size = length
  kept : ∀ m : Nat, m * fs.bsize < length → (m = length / fs.bsize → dataAddr fs s m ≠ 0) →
    bmap fs (fun _ => true) s' m = bmap fs (fun _ => true) s m
  last : length % fs.bsize ≠ 0 → ∃ b, bmap fs (fun _ => true) s' (length / fs.bsize : Nat) = .ok b ∧ b ≠ -1
  gone : ∀ m : Nat, m < 2 ^ 31 → length ≤ m * fs.bsize →
    bmap fs (fun _ => true) s' m = .ok (-1) ∨ bmap fs (fun _ => true) s' m = .error .efbig
  zero : length % fs.bsize ≠ 0 → ∀ k f, (contents fs s' (length / fs.bsize))[k]? = some f →
    ∀ b < fs.fsize, length % fs.bsize ≤ k * fs.fsize + b → f b = 0
  freed : ∃ log, s'.freed = s.freed ++ log ∧ (log.map Prod.fst).Nodup ∧ (∀ e, e ∈ log ↔ Unreachable fs s s' e) ∧
    ∃ new : Finset Nat, Disjoint new s.held ∧ s'.held = (s.held ∪ new) \ pieces fs log ∧
      (new = ∅ ∨ length % fs.bsize ≠ 0 ∧ dataAddr fs s (length / fs.bsize : Nat) = 0) ∧
      s'.ip.blocks = s.ip.blocks + btodb (new.card * fs.fsize) - sectors log

/-- What a file of `length` bytes has of the direct block `i`. -/
def blockBytes (fs : Fs) (length i : Nat) (ip : Inode) : Nat :=
  if i * fs.bsize < length then blksize fs { ip with size := length } i else 0

/-- The sum does not wrap, and of each direct block as many bytes are freed with `osize` as with the size itself. -/
def Exact (fs : Fs) (length : Nat) (s : State) : Prop :=
  length + fs.bsize ≤ 2 ^ 32 ∧ ∀ i < NDADDR, (s.ip.db i ≠ 0 ∨ length % fs.bsize ≠ 0 ∧ i = length / fs.bsize) →
    blksize fs (s.ip.tip s.ip.size) i - blockBytes fs length i s.ip = blksize fs s.ip i - blockBytes fs length i s.ip

/-- What the slots lose is counted in `i_blocks`. -/
theorem Sized.counted (h : Regular fs s₀) (hs : Sized fs length s₀ s) : s.ip.blocks = btodb (s.held.card * fs.fsize) := by
  obtain ⟨new, hdis, hheld, hblocks⟩ := hs.took
  rw [hblocks, h.counted, hheld, Finset.card_union_of_disjoint hdis.symm, Nat.add_mul, btodb_add (Nat.dvd_mul_left fs.fsize _)]
  push_cast
  rfl

theorem Sized.sectors_le (h : Regular fs s₀) (hs : Sized fs length s₀ s) (ht : IsTip s₀ s tip)
    {log : List (Nat × Nat)} (hnodup : (log.map Prod.fst).Nodup)
    (hmem : ∀ e ∈ log, ∃ x, Loses fs length tip s x ∧ e = cutOff fs length tip s x) :
    (sectors log : Int) ≤ s.ip.blocks := by
  rw [hs.counted h, Nat.cast_le]
  apply UfsTrunc.sectors_le
  · rw [List.nodup_iff_pairwise_ne, List.pairwise_map] at hnodup
    apply hnodup.imp_of_mem
    intro e e' he he' hne
    obtain ⟨x, hx, rfl⟩ := hmem e he
    obtain ⟨y, hy, rfl⟩ := hmem e' he'
    have hxy : x ≠ y := by
      rintro rfl
      exact hne rfl
    exact (hs.extents.apart x y hxy hx.1 hy.1).mono (hx.piece_subset ht) (hy.piece_subset ht)
  · intro e he
    obtain ⟨x, hx, rfl⟩ := hmem e he
    exact (hx.piece_subset ht).trans (hs.extents.inside x hx.1)
  · intro e he
    obtain ⟨x, hx, rfl⟩ := hmem e he
    exact Nat.dvd_sub (bytes_dvd tip x) (keptBytes_dvd length tip x)

/-! ## When exactly the tail is freed -/

theorem bmap_some (hm : m < 2 ^ 20) : bmap fs (fun _ => true) s m = .ok (fs.blkno (dataAddr fs s m)) := by
  obtain ⟨x, hx⟩ := dataSlot_some fs hm
  have hm' : (m : Int) < 2 ^ 31 := by omega
  rw [bmap_eq hm', if_neg (by rw [hx]; exact Option.some_ne_none x)]

theorem blkno_ne {a : Nat} (ha : a ≠ 0) : fs.blkno a ≠ -1 := by
  have := fs.toDb_nonneg a
  rw [Fs.blkno, if_neg ha]
  omega

section Result
variable (h : Regular fs s₀) (hlength : length < s₀.ip.size) (hlt : length < 2 ^ 32) (hs : Sized fs length s₀ s)
  (ht : Truncates fs length s₀ s s')

include hlt in
theorem block_lt (hm : m * fs.bsize ≤ length) : m < 2 ^ 20 := by
  have hb := fs.bsize_bounds
  have : m * 4096 ≤ m * fs.bsize := Nat.mul_le_mul_left m hb.1
  omega

include ht in
theorem Truncates.dataAddr_eq (hm : m < 2 ^ 31) :
    dataAddr fs s' m = if (m : Int) ≤ lastBlock fs length then dataAddr fs s m else 0 := by
  unfold dataAddr
  cases hx : dataSlot fs m with
  | none => simp
  | some x => simp only [ht.addrs, first_dataSlot hm hx]

include hlt hs ht in
theorem Truncates.kept (hfits : length + fs.bsize ≤ 2 ^ 32) (hm : m * fs.bsize < length)
    (hhole : m = length / fs.bsize → dataAddr fs s₀ m ≠ 0) :
    bmap fs (fun _ => true) s' m = bmap fs (fun _ => true) s₀ m := by
  have hsmall := block_lt hlt hm.le
  rw [bmap_some hsmall, bmap_some hsmall, ht.dataAddr_eq (by omega), if_pos ((le_lastBlock hfits m).2 hm)]
  congr 2
  obtain ⟨x, hx⟩ := dataSlot_some fs hsmall
  simp only [dataAddr, hx] at hhole ⊢
  rcases hs.same x with hsame | ⟨hzero, -, -, hslot⟩
  · exact hsame
  · have hni := dataSlot_not_inner (by omega) hx
    have hlbn := block_lt hlt (Nat.div_mul_le_self length fs.bsize)
    have heq := dataSlot_inj (by omega) (by omega) (hslot hni) hx
    exact absurd hzero (hhole (by omega))

include hlt hs ht in
theorem Truncates.last (hfits : length + fs.bsize ≤ 2 ^ 32) (hoff : length % fs.bsize ≠ 0) :
    dataAddr fs s' (length / fs.bsize : Nat) ≠ 0 := by
  have hlbn := block_lt hlt (Nat.div_mul_le_self length fs.bsize)
  have hlow : length / fs.bsize * fs.bsize < length := by
    have := Nat.div_add_mod' length fs.bsize
    omega
  obtain ⟨x, hx, hne, -⟩ := hs.last hoff
  rw [ht.dataAddr_eq (by omega), if_pos ((le_lastBlock hfits _).2 hlow)]
  simpa only [dataAddr, hx] using hne

include ht in
theorem Truncates.gone (hfits : length + fs.bsize ≤ 2 ^ 32) (hm : m < 2 ^ 31) (hlast : length ≤ m * fs.bsize) :
    bmap fs (fun _ => true) s' m = .ok (-1) ∨ bmap fs (fun _ => true) s' m = .error .efbig := by
  have hm' : (m : Int) < 2 ^ 31 := by exact_mod_cast hm
  have hnot : ¬(m : Int) ≤ lastBlock fs length := by
    rw [le_lastBlock hfits]
    omega
  rw [bmap_eq hm', ht.dataAddr_eq hm, if_neg hnot]
  by_cases hx : dataSlot fs m = none
  · exact .inr (if_pos hx)
  · exact .inl (if_neg hx)

include hlt hs ht in
/-- The last block is read with zeros behind the end. -/
theorem Truncates.zero (hfits : length + fs.bsize ≤ 2 ^ 32) (hoff : length % fs.bsize ≠ 0) {k : Nat} {f : Frag}
    (hf : (contents fs s' (length / fs.bsize))[k]? = some f) {b : Nat} (hb : b < fs.fsize)
    (hbyte : length % fs.bsize ≤ k * fs.fsize + b) : f b = 0 := by
  have hlbn := block_lt hlt (Nat.div_mul_le_self length fs.bsize)
  obtain ⟨x, hx, hne, hcleared⟩ := hs.last hoff
  have haddr : addr s' x = addr s x := by
    have hlow : length / fs.bsize * fs.bsize < length := by
      have := Nat.div_add_mod' length fs.bsize
      omega
    rw [ht.addrs, first_dataSlot (by omega) hx, if_pos ((le_lastBlock hfits _).2 hlow)]
  have hpos : length > 0 := by
    rcases Nat.eq_zero_or_pos length with rfl | hpos
    · simp at hoff
    · exact hpos
  have hincore : incore s' (length / fs.bsize) = none := by
    rw [incore, ht.bufs]
    rfl
  rw [contents, hincore] at hf
  simp only [strategy_eq (by omega : length / fs.bsize < 2 ^ 31) hx, haddr, if_neg hne, diskRead, Fs.toFsb_toDb,
    List.getElem?_map, Option.map_eq_some_iff, List.getElem?_eq_some_iff, List.getElem_range, List.length_range] at hf
  obtain ⟨j, ⟨hj, rfl⟩, rfl⟩ := hf
  have hsize : len fs s.ip x = fs.numfrags (blksize fs s'.ip (length / fs.bsize)) := by
    rw [len_dataSlot s.ip (by omega) hx]
    simp only [blksize, ht.size, hs.size]
  rw [ht.disk]
  simp only [hpos, decide_true]
  exact hcleared k (by rw [hsize]; exact hj) b hb hbyte

include h hlt hs ht in
/-- The file is cut, and the freed pieces are those that `osize` gives. -/
theorem Truncates.truncated_of (hfits : length + fs.bsize ≤ 2 ^ 32)
    (hsame : ∀ e, (∃ x, Loses fs length (s.ip.tip s₀.ip.size) s x ∧ e = cutOff fs length (s.ip.tip s₀.ip.size) s x) ↔
      Unreachable fs s₀ s' e) : Truncated fs length s₀ s' where
  size := ht.size
  kept _ hm hhole := ht.kept hlt hs hfits hm hhole
  last hoff := by
    have hlbn := block_lt hlt (Nat.div_mul_le_self length fs.bsize)
    exact ⟨_, bmap_some hlbn, blkno_ne (ht.last hlt hs hfits hoff)⟩
  gone _ hm hlast := ht.gone hfits hm hlast
  zero hoff _ _ hf _ hb hbyte := ht.zero hlt hs hfits hoff hf hb hbyte
  freed := by
    obtain ⟨log, hfreed, hnodup, hmem, hheld, hblocks⟩ := ht.log
    obtain ⟨new, hdis, hheld', hblocks'⟩ := hs.took
    have htip : IsTip s₀ s (s.ip.tip s₀.ip.size) := isTip_tip s₀ s
    have hle := hs.sectors_le h htip hnodup fun e he => (hmem e).1 he
    refine ⟨log, by rw [hfreed, hs.freed], hnodup, fun e => (hmem e).trans (hsame e), new, hdis, by rw [hheld, hheld'], ?_, ?_⟩
    · rcases hs.hole with heq | hhole
      · left
        rw [hheld', Finset.union_eq_left] at heq
        exact Finset.disjoint_self_iff_empty new |>.1 (hdis.mono_right heq)
      · exact .inr hhole
    · rw [hblocks, max_eq_right (by omega), hblocks']

include hs ht in
/-- What is no longer reachable is what the slots lose with the size that the file had. -/
theorem Truncates.unreachable_iff (hfits : length + fs.bsize ≤ 2 ^ 32) (e : Nat × Nat) :
    Unreachable fs s₀ s' e ↔ ∃ x, Loses fs length s₀.ip s x ∧ e = cutOff fs length s₀.ip s x := by
  have hkept : ∀ x, (first fs x : Int) ≤ lastBlock fs length → bytes fs s'.ip x = keptBytes fs length s₀.ip x := by
    intro x hstays
    rw [keptBytes, if_pos hstays]
    exact bytes_congr ht.size x
  constructor
  · rintro ⟨x, ⟨hne, hzero, rfl⟩ | ⟨hne, hshort, rfl⟩⟩
    · have hsame : addr s x = addr s₀ x := by
        rcases hs.same x with hsame | ⟨hz, -⟩
        · exact hsame
        · exact absurd hz hne
      have hgone : ¬(first fs x : Int) ≤ lastBlock fs length := by
        intro hstays
        rw [ht.addrs, if_pos hstays, hsame] at hzero
        exact hne hzero
      exact ⟨x, ⟨by rwa [hsame], .inl hgone⟩, by rw [cutOff_gone hgone, hsame]⟩
    · have hstays : (first fs x : Int) ≤ lastBlock fs length := by
        by_contra hgone
        rw [ht.addrs, if_neg hgone] at hne
        exact hne rfl
      rw [ht.addrs, if_pos hstays] at hne ⊢
      rw [hkept x hstays] at hshort ⊢
      exact ⟨x, ⟨hne, .inr hshort⟩, rfl⟩
  · rintro ⟨x, ⟨hne, hloses⟩, rfl⟩
    refine ⟨x, ?_⟩
    by_cases hstays : (first fs x : Int) ≤ lastBlock fs length
    · right
      rw [ht.addrs, if_pos hstays, hkept x hstays]
      exact ⟨hne, hloses.resolve_left (not_not.2 hstays), rfl⟩
    · left
      have hsame : addr s x = addr s₀ x := by
        rcases hs.same x with hsame | ⟨-, hoff, hfirst, -⟩
        · exact hsame
        · -- what was provided is before the end
          have hlow : first fs x * fs.bsize < length := by
            have hle := Nat.mul_le_mul_right fs.bsize hfirst
            have := Nat.div_add_mod' length fs.bsize
            omega
          exact absurd ((le_lastBlock hfits _).2 hlow) hstays
      rw [ht.addrs, if_neg hstays, ← hsame, cutOff_gone hstays]
      exact ⟨hne, rfl, rfl⟩

/-- The size in `tip` gives as many bytes of each piece to be freed as the size itself. -/
def SameLoss (fs : Fs) (length : Nat) (s : State) (ip tip : Inode) : Prop :=
  ∀ x, addr s x ≠ 0 → bytes fs tip x - keptBytes fs length tip x = bytes fs ip x - keptBytes fs length ip x

omit h hlength hlt hs ht in
theorem keptBytes_eq (ip ip' : Inode) (x : Slot) : keptBytes fs length ip x = keptBytes fs length ip' x := by
  unfold keptBytes
  have hbytes : bytes fs { ip with size := length } x = bytes fs { ip' with size := length } x := bytes_congr rfl x
  rw [hbytes]

include h hlength hs in
theorem sameLoss_iff (hle : ∀ x, bytes fs tip x ≤ bytes fs s₀.ip x) :
    (∀ e, (∃ x, Loses fs length tip s x ∧ e = cutOff fs length tip s x) ↔
      ∃ x, Loses fs length s₀.ip s x ∧ e = cutOff fs length s₀.ip s x) ↔ SameLoss fs length s s₀.ip tip := by
  have hkept : ∀ x, keptBytes fs length tip x = keptBytes fs length s₀.ip x := keptBytes_eq tip s₀.ip
  constructor
  · intro hsame x hx
    by_contra hne
    have hlt : keptBytes fs length s₀.ip x < bytes fs s₀.ip x := by
      have := hle x
      rw [hkept] at hne
      omega
    obtain ⟨y, hy, heq⟩ := (hsame _).2 ⟨x, ⟨hx, .inr hlt⟩, rfl⟩
    have hmem : (cutOff fs length s₀.ip s x).1 ∈ extent (addr s) (len fs s₀.ip) x :=
      Loses.mem_extent ⟨hx, .inr hlt⟩ le_rfl (hs.pos h hlength hx)
    have hmem' := hy.mem_extent (hle y) (hs.pos h hlength hy.1)
    rw [← heq] at hmem'
    have hxy : x = y := by
      by_contra hxy
      exact Finset.disjoint_left.1 (hs.extents.apart x y hxy hx hy.1) hmem hmem'
    subst hxy
    exact hne (congrArg Prod.snd heq).symm
  · intro hsame e
    have hslot : ∀ x, addr s x ≠ 0 → (Loses fs length tip s x ↔ Loses fs length s₀.ip s x) ∧
        cutOff fs length tip s x = cutOff fs length s₀.ip s x := by
      intro x hx
      have hbytes := hsame x hx
      rw [hkept] at hbytes
      refine ⟨?_, ?_⟩
      · unfold Loses
        rw [hkept]
        have : keptBytes fs length s₀.ip x < bytes fs tip x ↔ keptBytes fs length s₀.ip x < bytes fs s₀.ip x := by omega
        rw [this]
      · rw [cutOff, cutOff, hkept, hbytes]
    constructor
    · rintro ⟨x, hx, rfl⟩
      exact ⟨x, (hslot x hx.1).1.1 hx, (hslot x hx.1).2⟩
    · rintro ⟨x, hx, rfl⟩
      exact ⟨x, (hslot x hx.1).1.2 hx, (hslot x hx.1).2.symm⟩

include hlt hs in
theorem sameLoss_direct (hfits : length + fs.bsize ≤ 2 ^ 32) : SameLoss fs length s s₀.ip (s.ip.tip s₀.ip.size) ↔
    ∀ i < NDADDR, (s₀.ip.db i ≠ 0 ∨ length % fs.bsize ≠ 0 ∧ i = length / fs.bsize) →
      blksize fs (s₀.ip.tip s₀.ip.size) i - blockBytes fs length i s₀.ip = blksize fs s₀.ip i - blockBytes fs length i s₀.ip := by
  have hsize : (s.ip.tip s₀.ip.size).size = (s₀.ip.tip s₀.ip.size).size := by rw [Inode.tip, Inode.tip]
  have hblk : ∀ i, blksize fs (s.ip.tip s₀.ip.size) i = blksize fs (s₀.ip.tip s₀.ip.size) i := by
    intro i
    generalize s.ip.tip s₀.ip.size = tip at hsize ⊢
    generalize s₀.ip.tip s₀.ip.size = tip' at hsize ⊢
    simp only [blksize, hsize]
  generalize s.ip.tip s₀.ip.size = tip at hblk ⊢
  generalize s₀.ip.tip s₀.ip.size = tip' at hblk ⊢
  have hkept : ∀ i, keptBytes fs length s₀.ip (.direct i) = blockBytes fs length i s₀.ip := by
    intro i
    rw [keptBytes, first, blockBytes]
    simp only [le_lastBlock hfits]
    rfl
  have hused : ∀ i < NDADDR, addr s (.direct i) ≠ 0 ↔ s₀.ip.db i ≠ 0 ∨ length % fs.bsize ≠ 0 ∧ i = length / fs.bsize := by
    intro i hi
    have hi31 : ((i : Nat) : Int) < 2 ^ 31 := by
      unfold NDADDR at hi
      omega
    have hlbn := block_lt hlt (Nat.div_mul_le_self length fs.bsize)
    constructor
    · intro hne
      rcases hs.same (.direct i) with hsame | ⟨-, hoff, -, hslot⟩
      · rw [hsame, addr_direct hi] at hne
        exact .inl hne
      · have hinj := dataSlot_inj (by omega) hi31 (hslot id) (direct_slot hi)
        exact .inr ⟨hoff, by omega⟩
    · rintro (hne | ⟨hoff, rfl⟩)
      · rcases hs.same (.direct i) with hsame | ⟨hzero, -⟩
        · rwa [hsame, addr_direct hi]
        · rw [addr_direct hi] at hzero
          exact absurd hzero hne
      · obtain ⟨x, hx, hne, -⟩ := hs.last hoff
        obtain rfl := Option.some.inj ((direct_slot hi).symm.trans hx)
        exact hne
  constructor
  · intro hsame i hi hne
    have := hsame (.direct i) ((hused i hi).2 hne)
    rwa [keptBytes_eq tip s₀.ip, hkept, bytes, bytes, hblk] at this
  · intro hsame x hx
    cases x with
    | direct i =>
      have hi : i < NDADDR := by
        by_contra hge
        simp [addr, slotAddr, hge] at hx
      rw [keptBytes_eq tip s₀.ip, hkept, bytes, bytes, hblk]
      exact hsame i hi ((hused i hi).1 hx)
    | indirect l q => rw [keptBytes_eq tip s₀.ip, bytes, bytes]

include h hlength hlt hs ht in
/-- Exactly the tail is freed under the condition, and only then. -/
theorem Truncates.truncated_iff : Truncated fs length s₀ s' ↔ Exact fs length s₀ := by
  have htip := isTip_tip s₀ s
  constructor
  · intro hcut
    have hfits : length + fs.bsize ≤ 2 ^ 32 := by
      by_contra hwrap
      -- the sum wraps, and no block is left
      have hoff : length % fs.bsize ≠ 0 := by
        rcases fs.bsize_pow with hb | hb | hb | hb | hb <;> rw [hb] at hwrap ⊢ <;> omega
      have hlbn := block_lt hlt (Nat.div_mul_le_self length fs.bsize)
      obtain ⟨b, hb, hne⟩ := hcut.last hoff
      have hnot : ¬((length / fs.bsize : Nat) : Int) ≤ -1 :=
        not_le.2 (lt_of_lt_of_le (by decide) (Int.natCast_nonneg _))
      rw [bmap_some hlbn, ht.dataAddr_eq (by omega), lastBlock_wraps (by omega) hlt, if_neg hnot] at hb
      exact hne (Except.ok.inj hb).symm
    refine ⟨hfits, (sameLoss_direct hlt hs hfits).1 ((sameLoss_iff h hlength hs htip.bytes_le).1 fun e => ?_)⟩
    obtain ⟨log, hfreed, -, hmem, -⟩ := ht.log
    obtain ⟨log', hfreed', -, hmem', -⟩ := hcut.freed
    rw [hs.freed] at hfreed
    obtain rfl := List.append_cancel_left (hfreed.symm.trans hfreed')
    rw [← hmem, hmem', ht.unreachable_iff hs hfits]
  · rintro ⟨hfits, hsizes⟩
    apply ht.truncated_of h hlt hs hfits
    intro e
    rw [ht.unreachable_iff hs hfits]
    exact (sameLoss_iff h hlength hs htip.bytes_le).2 ((sameLoss_direct hlt hs hfits).2 hsizes) e

end Result

/-- `itrunc` frees exactly the tail of a file, if the sum does not wrap and `osize` gives the sizes of the blocks that
are freed; it fails only if `length` is in a hole and there is no room for that block. -/
theorem itrunc_iff (h : Regular fs s) (hread : Reads env) (hlength : length < s.ip.size) (hlt : length < 2 ^ 32) :
    (itrunc fs env length).wp (fun _ s' => Truncated fs length s s' ↔ Exact fs length s)
      (fun e _ => e.NoRoom ∧ length % fs.bsize ≠ 0 ∧ dataAddr fs s (length / fs.bsize : Nat) = 0) s := by
  have hspec := itrunc_spec h hread hlength hlt
  generalize itrunc fs env length = c at hspec ⊢
  apply wp_mono hspec
  · rintro u s' ⟨s₁, hs, ht⟩
    exact ht.truncated_iff h hlength hlt hs
  · exact fun e s' he => he

theorem hundredBytes_regular : Regular fourFrags hundredBytes where
  consistent := hundredBytes_consistent
  counted := by decide
  entries _ _ _ := rfl
  cached := List.nodup_nil
  mapped e he := by cases he

theorem oneBlockLeft_reads : Reads oneBlockLeft := ⟨fun _ => rfl, fun _ => rfl⟩

theorem itrunc_hundredBytes :
    (itrunc fourFrags oneBlockLeft 0).wp (fun _ s' => Truncated fourFrags 0 hundredBytes s' ↔ Exact fourFrags 0 hundredBytes)
      (fun e _ => e.NoRoom ∧ 0 % fourFrags.bsize ≠ 0 ∧ dataAddr fourFrags hundredBytes (0 / fourFrags.bsize : Nat) = 0)
      hundredBytes :=
  itrunc_iff hundredBytes_regular oneBlockLeft_reads (by decide) (by decide)

/-- A file of 4 gigabytes and 100 bytes, of which the first block alone is not a hole. -/
def sparse : State where
  ip := ⟨2 ^ 32 + 100, 8, fun i => if i = 0 then 8 else 0, fun _ => 0⟩
  ptrs := fun _ _ => 0
  bufs := []
  disk := fun _ _ => 0
  held := {8, 9, 10, 11}
  freed := []

theorem sparse_regular : Regular fourFrags sparse where
  consistent := by
    apply consistent_of_single
    · exact singleBlock_addr rfl rfl
    · decide
    · decide
    · rfl
    · refine ⟨fun i hi hsize => ?_, fun i hi hlast _ => ?_, by decide⟩
      · unfold NDADDR at hi
        simp only [sparse, fourFrags] at hsize
        omega
      · unfold NDADDR at hi
        simp only [sparse, fourFrags] at hlast
        omega
  counted := by decide
  entries _ _ _ := rfl
  cached := List.nodup_nil
  mapped e he := by cases he

/-- Truncated to nothing, the file gets back one fragment of its block only. -/
theorem itrunc_sparse : ∃ s', itrunc fourFrags oneBlockLeft 0 sparse = (.ok (), s') ∧ ¬Truncated fourFrags 0 sparse s' := by
  have hlength : 0 < sparse.ip.size := by decide
  have hspec := itrunc_spec sparse_regular oneBlockLeft_reads hlength (by decide)
  rcases hres : itrunc fourFrags oneBlockLeft 0 sparse with ⟨e | u, s'⟩
  · simp only [Cmd.wp, hres] at hspec
    exact absurd (by decide) hspec.2.1
  · simp only [Cmd.wp, hres] at hspec
    obtain ⟨s, hs, ht⟩ := hspec
    refine ⟨s', rfl, fun hcut => ?_⟩
    have hexact := (ht.truncated_iff sparse_regular hlength (by decide) hs).1 hcut
    exact absurd (hexact.2 0 (by decide) (.inl (by decide))) (by decide)

end BsdKernel.UfsTrunc
