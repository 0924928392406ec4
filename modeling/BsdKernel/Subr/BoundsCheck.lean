import BsdKernel.Lib.Signed
/-!
# Partition bounds

`bounds_check_with_label` of `kern/subr/disklabel.c` on 32-bit numbers that wrap.
What the function does is a case split over integers (`bounds_check_cases`); the
blocks it lets through are in the partition and off the label sector exactly when
none of its sums goes wrong (`bounds_check_with_label_iff`).
-/

namespace BsdKernel.BoundsCheck

open BsdKernel.Lib

def DEV_BSIZE : Int := 512

def LABELSECTOR : Int := 1

abbrev MAXPARTITIONS : Nat := 8

/-- A number read as `u_long`. -/
def ulong (x : Int) : Int := x % 2 ^ 32

/-! ## Buffers and labels -/

inductive Errno where
  | EINVAL
  | EROFS
  deriving Repr, DecidableEq

/-- `struct partition`: `u_long` fields. -/
structure Partition where
  p_size : Int
  p_offset : Int
  size_fits : 0 ≤ p_size ∧ p_size < 2 ^ 32
  offset_fits : 0 ≤ p_offset ∧ p_offset < 2 ^ 32

structure Disklabel where
  d_secpercyl : Int
  d_partitions : Fin MAXPARTITIONS → Partition

/-- `struct buf`; `b_cylin` is `b_resid`. -/
structure Buf where
  B_READ : Bool
  B_ERROR : Bool
  b_error : Option Errno
  b_dev : Nat
  b_blkno : Int
  b_bcount : Int
  b_resid : Int
  blkno_fits : Fits32 b_blkno
  bcount_fits : Fits32 b_bcount

/-- `dkpart`, the low three bits of the minor device number. -/
def dkpart (dev : Nat) : Fin MAXPARTITIONS := ⟨dev % 256 % 8, Nat.mod_lt _ (by decide)⟩

/-! ## The check -/

/-- The exit `bad`. -/
def Buf.bad (bp : Buf) (e : Errno) : Int × Buf := (-1, { bp with b_error := some e, B_ERROR := true })

/-- The last step: the cylinder for `disksort`. A division by zero traps. -/
def setCylin (lp : Disklabel) (p : Partition) (bp : Buf) : Option (Int × Buf) :=
  if lp.d_secpercyl = 0 then none
  else some (1, { bp with b_resid := wrap32 (ulong (bp.b_blkno + p.p_offset) / lp.d_secpercyl) })

/-- `sz`, the number of blocks of the transfer. -/
def sz (bp : Buf) : Int := wrap32 (bp.b_bcount + DEV_BSIZE - 1) / DEV_BSIZE

/-- The first test, in unsigned arithmetic: the blocks start at or before the label and end behind it. -/
def Overwrites (lp : Disklabel) (p : Partition) (wlabel : Bool) (bp : Buf) : Prop :=
  ulong (bp.b_blkno + p.p_offset) ≤ ulong (LABELSECTOR + wrap32 (lp.d_partitions 0).p_offset) ∧
    ulong (LABELSECTOR + wrap32 (lp.d_partitions 0).p_offset) < ulong (bp.b_blkno + p.p_offset + sz bp) ∧
    bp.B_READ = false ∧ wlabel = false

instance (lp : Disklabel) (p : Partition) (wlabel : Bool) (bp : Buf) : Decidable (Overwrites lp p wlabel bp) := by
  unfold Overwrites
  infer_instance

/-- `bounds_check_with_label`: the value returned and the buffer left. -/
def bounds_check_with_label (lp : Disklabel) (wlabel : Bool) (bp : Buf) : Option (Int × Buf) :=
  let p := lp.d_partitions (dkpart bp.b_dev)
  let maxsz := wrap32 p.p_size
  if Overwrites lp p wlabel bp then some (bp.bad .EROFS)
  else if bp.b_blkno < 0 ∨ maxsz < wrap32 (bp.b_blkno + sz bp) then
    if bp.b_blkno = maxsz then some (0, { bp with b_resid := bp.b_bcount })
    else
      let sz := wrap32 (maxsz - bp.b_blkno)
      if sz ≤ 0 then some (bp.bad .EINVAL)
      else setCylin lp p { bp with b_bcount := wrap32 (sz * DEV_BSIZE), bcount_fits := fits32_wrap32 _ }
  else setCylin lp p bp

/-! ## What the check is for -/

/-- The blocks taken by a number of bytes. A negative number takes none. -/
def blocks (bcount : Int) : Int := (bcount + 511) / 512

/-- None of the `n` blocks from `b_blkno` on is the label sector, for a write that may not touch it. -/
def Clear (lp : Disklabel) (p : Partition) (wlabel : Bool) (bp : Buf) (n : Int) : Prop :=
  bp.B_READ = false → wlabel = false → ∀ k, bp.b_blkno ≤ k → k < bp.b_blkno + n →
    p.p_offset + k ≠ LABELSECTOR + (lp.d_partitions 0).p_offset

/-- What the answer and the buffer left promise the driver about a request. -/
structure Guarded (lp : Disklabel) (wlabel : Bool) (bp : Buf) (r : Int × Buf) : Prop where
  inside : r.1 = 1 → ∀ k, r.2.b_blkno ≤ k → k < r.2.b_blkno + blocks r.2.b_bcount →
    0 ≤ k ∧ k < (lp.d_partitions (dkpart bp.b_dev)).p_size
  shorter : r.1 = 1 → r.2.b_bcount ≤ bp.b_bcount
  clear : r.1 = 1 → Clear lp (lp.d_partitions (dkpart bp.b_dev)) wlabel r.2 (blocks r.2.b_bcount)
  eof : r.1 = 0 → bp.b_blkno = (lp.d_partitions (dkpart bp.b_dev)).p_size
  error : r.1 ≠ 1 → r.1 ≠ 0 → r.1 = -1 ∧ r.2.B_ERROR = true ∧ r.2.b_error ≠ none

/-! ## When it keeps it -/

/-- The bounds test lets the whole request through. A partition of `2 ^ 31` blocks or more has a
negative `maxsz`, a sum from `2 ^ 31` on is negative too, and so is the size of a count within 511
of `2 ^ 31`. -/
def Passes (p : Partition) (bp : Buf) : Prop :=
  0 ≤ bp.b_blkno ∧
    if bp.b_bcount ≤ 2 ^ 31 - 512 then
      p.p_size < 2 ^ 31 ∧ bp.b_blkno + blocks bp.b_bcount ≤ p.p_size ∨
        2 ^ 31 ≤ bp.b_blkno + blocks bp.b_bcount ∧
          (p.p_size < 2 ^ 31 ∨ bp.b_blkno + blocks bp.b_bcount ≤ p.p_size)
    else if p.p_size < 2 ^ 31 then bp.b_blkno ≤ p.p_size + 2 ^ 22
    else bp.b_blkno + 2 ^ 32 ≤ p.p_size + 2 ^ 22

/-- The blocks to the end of the partition, on 32 bits. -/
def room (p : Partition) (bp : Buf) : Int := wrap32 (p.p_size - bp.b_blkno)

/-- The bytes to the end of the partition, on 32 bits. -/
def kept (p : Partition) (bp : Buf) : Int := wrap32 (512 * (p.p_size - bp.b_blkno))

/-- No sum goes wrong on the request: what passes fits, the end is the end, and what is cut off
is a part of the request. -/
def Sound (lp : Disklabel) (wlabel : Bool) (bp : Buf) : Prop :=
  let p := lp.d_partitions (dkpart bp.b_dev)
  Overwrites lp p wlabel bp ∨
    (Passes p bp → bp.b_blkno + blocks bp.b_bcount ≤ p.p_size ∧ Clear lp p wlabel bp (blocks bp.b_bcount)) ∧
    (¬Passes p bp → room p bp = 0 → bp.b_blkno = p.p_size) ∧
    (¬Passes p bp → 0 < room p bp →
      (0 ≤ bp.b_blkno ∨ kept p bp ≤ 0) ∧ kept p bp ≤ bp.b_bcount ∧ Clear lp p wlabel bp (blocks (kept p bp)))

/-! ## The sums -/

section Sums

variable (p : Partition) (bp : Buf)

/-- The size of the transfer: the blocks, but `-2 ^ 22` where adding `DEV_BSIZE - 1` wraps. -/
theorem sz_eq (h : 0 ≤ bp.b_bcount) :
    sz bp = if bp.b_bcount ≤ 2 ^ 31 - 512 then blocks bp.b_bcount else -2 ^ 22 := by
  have hfits := bp.bcount_fits
  unfold Fits32 at hfits
  unfold sz DEV_BSIZE blocks wrap32
  split <;> omega

theorem passes_iff (h : 0 ≤ bp.b_bcount) :
    Passes p bp ↔ ¬(bp.b_blkno < 0 ∨ wrap32 p.p_size < wrap32 (bp.b_blkno + sz bp)) := by
  have hsize := p.size_fits
  have hblkno := bp.blkno_fits
  have hcount := bp.bcount_fits
  unfold Fits32 at hblkno hcount
  rw [sz_eq bp h, Passes]
  unfold wrap32 blocks
  split_ifs <;> omega

/-- `maxsz - b_blkno` sees the size of the partition only up to its wrap. -/
theorem room_eq : wrap32 (wrap32 p.p_size - bp.b_blkno) = room p bp := by
  rw [sub_eq_add_neg, wrap32_wrap32_add, ← sub_eq_add_neg, room]

theorem kept_eq : wrap32 (room p bp * DEV_BSIZE) = kept p bp := by
  unfold kept room DEV_BSIZE wrap32
  omega

theorem at_maxsz_iff : bp.b_blkno = wrap32 p.p_size ↔ room p bp = 0 := by
  have hblkno := bp.blkno_fits
  unfold Fits32 at hblkno
  unfold room wrap32
  omega

/-- A request that passes starts at zero or later, and one of no blocks starts in the partition. -/
theorem whole_inside_iff (hpass : Passes p bp) :
    (0 < blocks bp.b_bcount → 0 ≤ bp.b_blkno ∧ bp.b_blkno + blocks bp.b_bcount ≤ p.p_size) ↔
      bp.b_blkno + blocks bp.b_bcount ≤ p.p_size := by
  have hblkno := bp.blkno_fits
  unfold Fits32 at hblkno
  obtain ⟨hlow, hpass⟩ := hpass
  constructor
  · intro hinside
    by_cases hpos : 0 < blocks bp.b_bcount
    · exact (hinside hpos).2
    · unfold blocks at hpos hpass ⊢
      split_ifs at hpass <;> omega
  · exact fun hle _ => ⟨hlow, hle⟩

/-- What is kept of a request ends in the partition. -/
theorem kept_inside (hroom : 0 < room p bp) :
    bp.b_blkno + blocks (kept p bp) ≤ p.p_size := by
  have hsize := p.size_fits
  have hblkno := bp.blkno_fits
  unfold Fits32 at hblkno
  unfold room wrap32 at hroom
  unfold blocks kept wrap32
  omega

theorem part_inside_iff (hroom : 0 < room p bp) :
    (0 < blocks (kept p bp) → 0 ≤ bp.b_blkno ∧ bp.b_blkno + blocks (kept p bp) ≤ p.p_size) ↔
      0 ≤ bp.b_blkno ∨ kept p bp ≤ 0 := by
  have hpos : 0 < blocks (kept p bp) ↔ ¬kept p bp ≤ 0 := by
    unfold blocks
    omega
  rw [hpos]
  constructor
  · intro hinside
    by_cases hkept : kept p bp ≤ 0
    · exact .inr hkept
    · exact .inl (hinside hkept).1
  · rintro (hlow | hkept) hnot
    · exact ⟨hlow, kept_inside p bp hroom⟩
    · exact absurd hkept hnot

end Sums

/-! ## What the function does -/

/-- The five ways through the function. -/
inductive Answer (lp : Disklabel) (p : Partition) (wlabel : Bool) (bp : Buf) : Int × Buf → Prop
  | label : Overwrites lp p wlabel bp → Answer lp p wlabel bp (bp.bad .EROFS)
  | whole (resid : Int) : ¬Overwrites lp p wlabel bp → Passes p bp →
      Answer lp p wlabel bp (1, { bp with b_resid := resid })
  | eof : ¬Overwrites lp p wlabel bp → ¬Passes p bp → room p bp = 0 →
      Answer lp p wlabel bp (0, { bp with b_resid := bp.b_bcount })
  | beyond : ¬Overwrites lp p wlabel bp → ¬Passes p bp → room p bp < 0 → Answer lp p wlabel bp (bp.bad .EINVAL)
  | part (resid : Int) : ¬Overwrites lp p wlabel bp → ¬Passes p bp → 0 < room p bp →
      Answer lp p wlabel bp
        (1, { bp with b_bcount := kept p bp, bcount_fits := fits32_wrap32 _, b_resid := resid })

theorem bounds_check_cases (lp : Disklabel) (wlabel : Bool) (bp : Buf) (hcyl : lp.d_secpercyl ≠ 0)
    (hcount : 0 ≤ bp.b_bcount) :
    ∃ r, bounds_check_with_label lp wlabel bp = some r ∧
      Answer lp (lp.d_partitions (dkpart bp.b_dev)) wlabel bp r := by
  unfold bounds_check_with_label
  by_cases hlabel : Overwrites lp (lp.d_partitions (dkpart bp.b_dev)) wlabel bp
  · exact ⟨_, if_pos hlabel, .label hlabel⟩
  simp only [if_neg hlabel, setCylin, if_neg hcyl, at_maxsz_iff]
  by_cases hpass : Passes (lp.d_partitions (dkpart bp.b_dev)) bp
  · rw [if_neg ((passes_iff _ bp hcount).1 hpass)]
    exact ⟨_, rfl, .whole _ hlabel hpass⟩
  rw [if_pos (not_not.1 (mt (passes_iff _ bp hcount).2 hpass))]
  by_cases hend : room (lp.d_partitions (dkpart bp.b_dev)) bp = 0
  · rw [if_pos hend]
    exact ⟨_, rfl, .eof hlabel hpass hend⟩
  rw [if_neg hend]
  simp only [room_eq, kept_eq]
  by_cases hbeyond : room (lp.d_partitions (dkpart bp.b_dev)) bp ≤ 0
  · rw [if_pos hbeyond]
    exact ⟨_, rfl, .beyond hlabel hpass (lt_of_le_of_ne hbeyond hend)⟩
  · rw [if_neg hbeyond]
    exact ⟨_, rfl, .part _ hlabel hpass (not_le.1 hbeyond)⟩

/-! ## When the answer is right -/

section Right

variable {lp : Disklabel} {wlabel : Bool} {bp : Buf}

theorem guarded_bad (e : Errno) : Guarded lp wlabel bp (bp.bad e) where
  inside h := absurd h (show (-1 : Int) ≠ 1 by decide)
  shorter h := absurd h (show (-1 : Int) ≠ 1 by decide)
  clear h := absurd h (show (-1 : Int) ≠ 1 by decide)
  eof h := absurd h (show (-1 : Int) ≠ 0 by decide)
  error _ _ := ⟨rfl, rfl, Option.some_ne_none _⟩

theorem guarded_eof_iff (resid : Int) :
    Guarded lp wlabel bp (0, { bp with b_resid := resid }) ↔
      bp.b_blkno = (lp.d_partitions (dkpart bp.b_dev)).p_size := by
  constructor
  · intro h
    exact h.eof rfl
  · intro h
    have hne : (0 : Int) ≠ 1 := by decide
    exact ⟨fun h1 => absurd h1 hne, fun h1 => absurd h1 hne, fun h1 => absurd h1 hne, fun _ => h,
      fun _ h0 => absurd rfl h0⟩

/-- A transfer of `bcount` bytes is right when its blocks are in the partition, and no more than asked for. -/
theorem guarded_go_iff (bcount resid : Int) (hfits : Fits32 bcount) :
    Guarded lp wlabel bp (1, { bp with b_bcount := bcount, bcount_fits := hfits, b_resid := resid }) ↔
      (0 < blocks bcount → 0 ≤ bp.b_blkno ∧
        bp.b_blkno + blocks bcount ≤ (lp.d_partitions (dkpart bp.b_dev)).p_size) ∧
      bcount ≤ bp.b_bcount ∧
      Clear lp (lp.d_partitions (dkpart bp.b_dev)) wlabel bp (blocks bcount) := by
  constructor
  · intro h
    have hinside := h.inside rfl
    refine ⟨fun hpos => ?_, h.shorter rfl, h.clear rfl⟩
    have hfirst := hinside bp.b_blkno le_rfl (Int.lt_add_of_pos_right _ hpos)
    have hlast := hinside (bp.b_blkno + blocks bcount - 1) (by simp only; omega) (Int.sub_one_lt_of_le le_rfl)
    omega
  · rintro ⟨hinside, hshorter, hclear⟩
    refine ⟨fun _ k hk hlt => ?_, fun _ => hshorter, fun _ => hclear,
      fun h => absurd h (show (1 : Int) ≠ 0 by decide), fun h => absurd rfl h⟩
    simp only at hk hlt
    obtain ⟨hlow, hhigh⟩ := hinside (by omega)
    omega

end Right

/-- The answer and the buffer left are right exactly on the requests that meet `Sound`. -/
theorem bounds_check_with_label_iff (lp : Disklabel) (wlabel : Bool) (bp : Buf) (hcyl : lp.d_secpercyl ≠ 0)
    (hcount : 0 ≤ bp.b_bcount) :
    (∃ r, bounds_check_with_label lp wlabel bp = some r ∧ Guarded lp wlabel bp r) ↔ Sound lp wlabel bp := by
  obtain ⟨r, hr, hanswer⟩ := bounds_check_cases lp wlabel bp hcyl hcount
  have hgoal : (∃ r, bounds_check_with_label lp wlabel bp = some r ∧ Guarded lp wlabel bp r) ↔
      Guarded lp wlabel bp r := by
    constructor
    · rintro ⟨r', hr', hg⟩
      rw [hr, Option.some.injEq] at hr'
      exact hr' ▸ hg
    · exact fun hg => ⟨r, hr, hg⟩
  rw [hgoal, Sound]
  cases hanswer with
  | label hlabel => exact iff_of_true (guarded_bad _) (.inl hlabel)
  | whole resid hlabel hpass =>
    have hinside : (0 < blocks bp.b_bcount → 0 ≤ bp.b_blkno ∧
        bp.b_blkno + blocks bp.b_bcount ≤ (lp.d_partitions (dkpart bp.b_dev)).p_size) ↔
          bp.b_blkno + blocks bp.b_bcount ≤ (lp.d_partitions (dkpart bp.b_dev)).p_size :=
      whole_inside_iff _ bp hpass
    rw [guarded_go_iff bp.b_bcount resid bp.bcount_fits, hinside]
    simp only [hlabel, hpass, not_true_eq_false, false_or, forall_true_left, false_implies, and_true, le_refl, true_and]
  | eof hlabel hpass hend =>
    rw [guarded_eof_iff]
    simp [hlabel, hpass, hend]
  | beyond hlabel hpass hbeyond =>
    refine iff_of_true (guarded_bad _) (.inr ⟨fun h => absurd h hpass, fun _ h => ?_, fun _ h => ?_⟩)
    · exact absurd h hbeyond.ne
    · exact absurd h hbeyond.not_gt
  | part resid hlabel hpass hroom =>
    rw [guarded_go_iff (kept _ bp) resid (fits32_wrap32 _)]
    simp only [hlabel, hpass, hroom, hroom.ne', not_false_eq_true, false_or, false_implies, true_and, forall_true_left]
    rw [part_inside_iff _ bp hroom]

/-! ## A small partition -/

/-- One partition of 100 blocks behind the first 64. -/
def label : Disklabel where
  d_secpercyl := 1024
  d_partitions := fun _ => ⟨100, 64, by decide, by decide⟩

/-- A read of one block. -/
def readAt (blkno : Int) (h : Fits32 blkno) : Buf where
  B_READ := true
  B_ERROR := false
  b_error := none
  b_dev := 0
  b_blkno := blkno
  b_bcount := 512
  b_resid := 0
  blkno_fits := h
  bcount_fits := by decide

/-- The last block is read as asked. -/
theorem bounds_check_last_block :
    ∃ r, bounds_check_with_label label false (readAt 99 (by decide)) = some r ∧
      Guarded label false (readAt 99 (by decide)) r := by
  refine (bounds_check_with_label_iff label false (readAt 99 (by decide)) (by decide) (by decide)).2 (.inr ?_)
  have hpass : Passes (label.d_partitions (dkpart 0)) (readAt 99 (by decide)) := by
    unfold Passes
    decide
  exact ⟨fun _ => ⟨by decide, fun h => absurd h (by decide)⟩, fun h => absurd hpass h, fun h => absurd hpass h⟩

/-- The block before the first is let through, with all of the partition behind it: 101 blocks
where one was asked for, from outside the partition. -/
theorem bounds_check_block_before :
    ∃ r, bounds_check_with_label label false (readAt (-1) (by decide)) = some r ∧
      r.1 = 1 ∧ r.2.b_blkno = -1 ∧ r.2.b_bcount = 101 * 512 ∧
      ¬Guarded label false (readAt (-1) (by decide)) r := by
  refine ⟨_, rfl, by decide, by decide, by decide, fun h => ?_⟩
  exact absurd (h.shorter (by decide)) (by decide)

end BsdKernel.BoundsCheck
