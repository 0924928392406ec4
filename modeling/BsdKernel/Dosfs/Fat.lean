import Mathlib.Data.BitVec
import Mathlib.Tactic
/-!
# The file allocation table

`fatentry` of `dosfs/dosfs_fat.c` with `fatblock` and `updateotherfats`. The table is
read and written in blocks of the buffer cache, which has a block by its number. An
entry has 12 bits where `pm_maxcluster` is at most 4086, so two entries share a byte,
and 16 bits otherwise.

`byteAt` is the table without its blocks: no entry is split over two blocks, and the
copies of the table are elsewhere, so a write changes the two bytes at the offset of
the entry (`byteAt_putushort`). Storing `CLUST_EOFE` in an even 12-bit entry writes its
upper four bits over the entry behind it, and `fatentry_exact` says when that shows.
-/

namespace BsdKernel.Dosfs

abbrev Byte := BitVec 8

/-- The buffer cache: the contents of the block with a number. -/
abbrev Disk := Nat → Nat → Byte

def CLUST_FIRST : Nat := 2

def PCFSFREE : BitVec 32 := 0

def CLUST_EOFE : BitVec 32 := 0xffff

def MAXBSIZE : Nat := 64 * 1024

/-- What `mountpcfs` takes from the boot sector. -/
structure Mount where
  bytesPerSec : Nat
  fatSecs : Nat
  fats : Nat
  fatblk : Nat
  maxcluster : Nat
  deriving DecidableEq, Repr

namespace Mount
variable (pmp : Mount)

/-- `FAT12` -/
def fat12 : Bool := pmp.maxcluster ≤ 4086

def fatblocksize : Nat := if pmp.fat12 then 3 * pmp.bytesPerSec else MAXBSIZE

def fatblocksec : Nat := pmp.fatblocksize / pmp.bytesPerSec

/-- `FATOFS` -/
def fatofs (cn : Nat) : Nat := if pmp.fat12 then cn * 3 / 2 else cn * 2

/-- `fatblock`: the block, its size and the offset in it. -/
def fatblock (ofs : Nat) : Nat × Nat × Nat :=
  let bn := ofs / pmp.fatblocksize * pmp.fatblocksec
  (bn + pmp.fatblk, min pmp.fatblocksec (pmp.fatSecs - bn) * pmp.bytesPerSec, ofs % pmp.fatblocksize)

end Mount

def getushort (block : Nat → Byte) (bo : Nat) : BitVec 16 := block (bo + 1) ++ block bo

def putushort (block : Nat → Byte) (bo : Nat) (v : BitVec 16) : Nat → Byte :=
  Function.update (Function.update block bo (v.extractLsb' 0 8)) (bo + 1) (v.extractLsb' 8 8)

/-- `updateotherfats`: the block is copied to the other tables. -/
def updateotherfats (pmp : Mount) (block : Nat → Byte) (bsize fatbn : Nat) (disk : Disk) : Disk :=
  (List.range (pmp.fats - 1)).foldl (fun disk i =>
    let fatbn := fatbn + (i + 1) * pmp.fatSecs
    Function.update disk fatbn fun j => if j < bsize then block j else disk fatbn j) disk

/-- The entry that is read, of a table whose word at the entry is `w`. -/
def readEntry (fat12 : Bool) (cn : Nat) (w : BitVec 16) : BitVec 32 :=
  let readcn := w.setWidth 32
  if fat12 then
    let readcn := if cn % 2 = 1 then readcn >>> 4 else readcn
    let readcn := readcn &&& 0x0fff
    if readcn &&& 0x0ff0 = 0x0ff0 then readcn ||| 0xf000 else readcn
  else readcn

/-- The word that is written. -/
def writeEntry (fat12 : Bool) (cn : Nat) (w : BitVec 16) (newcontents : BitVec 32) : BitVec 16 :=
  if fat12 then
    let readcn := w.setWidth 32
    if cn % 2 = 1 then ((readcn &&& 0x000f) ||| newcontents <<< 4).setWidth 16
    else ((readcn &&& 0xf000) ||| newcontents).setWidth 16
  else newcontents.setWidth 16

inductive Err
  | EINVAL
  /-- An access behind the end of the buffer. -/
  | fault
  deriving DecidableEq, Repr

/-- `fatentry`, where `get` and `set` are the bits of `function`: the old contents and
the disk. -/
def fatentry (get set : Bool) (pmp : Mount) (disk : Disk) (cn : Nat) (newcontents : BitVec 32) :
    Except Err (Option (BitVec 32) × Disk) :=
  if cn < CLUST_FIRST ∨ cn > pmp.maxcluster then .error .EINVAL
  else
    let (bn, bsize, bo) := pmp.fatblock (pmp.fatofs cn)
    if bsize < bo + 2 then .error .fault
    else
      let w := getushort (disk bn) bo
      let old := if get then some (readEntry pmp.fat12 cn w) else none
      if set then
        let block := putushort (disk bn) bo (writeEntry pmp.fat12 cn w newcontents)
        .ok (old, Function.update (updateotherfats pmp block bsize bn disk) bn block)
      else .ok (old, disk)

/-! ## The table without its blocks -/

/-- The geometry `mountpcfs` accepts (sectors and clusters are powers of two), for a
table with room for all clusters. -/
structure Mount.Ok (pmp : Mount) : Prop where
  sector : 0 < pmp.bytesPerSec ∧ pmp.bytesPerSec ∣ MAXBSIZE
  room : pmp.fatofs pmp.maxcluster + 2 ≤ pmp.fatSecs * pmp.bytesPerSec

/-- Sectors are of a size that `mountpcfs` accepts. -/
def Mount.Sectors (pmp : Mount) : Prop := 0 < pmp.bytesPerSec ∧ pmp.bytesPerSec ∣ MAXBSIZE

theorem Mount.Ok.sectors {pmp : Mount} (h : pmp.Ok) : pmp.Sectors := h.sector

/-- The byte of the table at an offset. -/
def byteAt (pmp : Mount) (disk : Disk) (ofs : Nat) : Byte := disk (pmp.fatblock ofs).1 (pmp.fatblock ofs).2.2

section Blocks
variable {pmp : Mount} {disk : Disk} {cn ofs : Nat}

theorem Mount.Sectors.fatblocksize_eq (h : pmp.Sectors) : pmp.fatblocksize = pmp.fatblocksec * pmp.bytesPerSec := by
  refine (Nat.div_mul_cancel ?_).symm
  unfold Mount.fatblocksize
  split
  · exact Nat.dvd_mul_left ..
  · exact h.2

theorem Mount.Sectors.fatblocksize_pos (h : pmp.Sectors) : 0 < pmp.fatblocksize := by
  have := h.1
  unfold Mount.fatblocksize MAXBSIZE
  split <;> omega

theorem fatofs_mono {c d : Nat} (h : c ≤ d) : pmp.fatofs c ≤ pmp.fatofs d := by
  unfold Mount.fatofs
  split <;> omega

theorem Mount.Sectors.entry_fits (h : pmp.Sectors) (cn : Nat) : pmp.fatofs cn % pmp.fatblocksize + 2 ≤ pmp.fatblocksize := by
  have hpos := h.1
  unfold Mount.fatofs Mount.fatblocksize
  split
  · rcases Nat.even_or_odd' cn with ⟨k, rfl | rfl⟩
    · have hofs : 2 * k * 3 / 2 = 3 * k := by omega
      have hlt := Nat.mod_lt k hpos
      rw [hofs, Nat.mul_mod_mul_left]
      omega
    · have hofs : (2 * k + 1) * 3 / 2 = 3 * k + 1 := by omega
      have hlt := Nat.mod_lt k hpos
      have hmod : (3 * k + 1) % (3 * pmp.bytesPerSec) = 3 * (k % pmp.bytesPerSec) + 1 := by
        rw [Nat.add_mod, Nat.mul_mod_mul_left, Nat.mod_eq_of_lt (a := 1) (by omega), Nat.mod_eq_of_lt (by omega)]
      rw [hofs, hmod]
      omega
  · unfold MAXBSIZE
    omega

/-- The first sector of a block that has a byte of the table is a sector of the table. -/
theorem Mount.Sectors.block_lt (h : pmp.Sectors) (hofs : ofs < pmp.fatSecs * pmp.bytesPerSec) :
    ofs / pmp.fatblocksize * pmp.fatblocksec < pmp.fatSecs := by
  have hle : ofs / pmp.fatblocksize * pmp.fatblocksec * pmp.bytesPerSec ≤ ofs := by
    rw [Nat.mul_assoc, ← h.fatblocksize_eq]
    exact Nat.div_mul_le_self ..
  by_contra hge
  have := Nat.mul_le_mul_right pmp.bytesPerSec (Nat.le_of_not_lt hge)
  omega

theorem Mount.Ok.entry_lt (h : pmp.Ok) (hcn : cn ≤ pmp.maxcluster) : pmp.fatofs cn + 2 ≤ pmp.fatSecs * pmp.bytesPerSec :=
  Nat.le_trans (Nat.add_le_add_right (fatofs_mono hcn) 2) h.room

theorem Mount.Sectors.bsize_le (h : pmp.Sectors) (hlt : pmp.fatofs cn + 2 ≤ pmp.fatSecs * pmp.bytesPerSec) :
    (pmp.fatblock (pmp.fatofs cn)).2.2 + 2 ≤ (pmp.fatblock (pmp.fatofs cn)).2.1 := by
  have hfits := h.entry_fits cn
  have hmod := Nat.div_add_mod' (pmp.fatofs cn) pmp.fatblocksize
  have hblock : pmp.fatofs cn / pmp.fatblocksize * pmp.fatblocksec * pmp.bytesPerSec =
      pmp.fatofs cn / pmp.fatblocksize * pmp.fatblocksize := by
    rw [Nat.mul_assoc, ← h.fatblocksize_eq]
  simp only [Mount.fatblock]
  rw [← Nat.mul_min_mul_right, Nat.sub_mul, hblock, ← h.fatblocksize_eq]
  omega

/-- The word of the table at an offset. -/
def wordAt (pmp : Mount) (disk : Disk) (ofs : Nat) : BitVec 16 := byteAt pmp disk (ofs + 1) ++ byteAt pmp disk ofs

theorem Mount.Sectors.fatblock_succ (h : pmp.Sectors) (cn : Nat) :
    (pmp.fatblock (pmp.fatofs cn + 1)).1 = (pmp.fatblock (pmp.fatofs cn)).1 ∧
      (pmp.fatblock (pmp.fatofs cn + 1)).2.2 = (pmp.fatblock (pmp.fatofs cn)).2.2 + 1 := by
  have hfits := h.entry_fits cn
  have hmod := Nat.div_add_mod' (pmp.fatofs cn) pmp.fatblocksize
  have hdiv : (pmp.fatofs cn + 1) / pmp.fatblocksize = pmp.fatofs cn / pmp.fatblocksize := by
    refine Nat.div_eq_of_lt_le (by omega) ?_
    rw [Nat.add_mul, Nat.one_mul]
    omega
  have hrem := Nat.div_add_mod' (pmp.fatofs cn + 1) pmp.fatblocksize
  rw [hdiv] at hrem
  simp only [Mount.fatblock, hdiv, true_and]
  omega

theorem Mount.Sectors.getushort_eq (h : pmp.Sectors) (disk : Disk) (cn : Nat) :
    getushort (disk (pmp.fatblock (pmp.fatofs cn)).1) (pmp.fatblock (pmp.fatofs cn)).2.2 = wordAt pmp disk (pmp.fatofs cn) := by
  obtain ⟨hbn, hbo⟩ := h.fatblock_succ cn
  rw [getushort, wordAt, byteAt, byteAt, hbn, hbo]

theorem updateotherfats_table {block : Nat → Byte} {bsize bn bn' : Nat} (hbn : bn' < bn + pmp.fatSecs) (disk : Disk) :
    updateotherfats pmp block bsize bn disk bn' = disk bn' := by
  unfold updateotherfats
  generalize pmp.fats - 1 = n
  induction n with
  | zero => rfl
  | succ n ih =>
    have hne : bn' ≠ bn + (n + 1) * pmp.fatSecs := by
      have := Nat.le_mul_of_pos_left pmp.fatSecs (show 0 < n + 1 by omega)
      omega
    rw [List.range_succ, List.foldl_append, List.foldl_cons, List.foldl_nil, Function.update_of_ne hne, ih]

/-- The disk after a word is written at an entry. -/
def written (pmp : Mount) (disk : Disk) (cn : Nat) (w : BitVec 16) : Disk :=
  let (bn, bsize, bo) := pmp.fatblock (pmp.fatofs cn)
  let block := putushort (disk bn) bo w
  Function.update (updateotherfats pmp block bsize bn disk) bn block

/-- Writing an entry changes the two bytes at its offset. -/
theorem byteAt_written (h : pmp.Ok) (hofs : ofs < pmp.fatSecs * pmp.bytesPerSec) (cn : Nat) (w : BitVec 16) :
    byteAt pmp (written pmp disk cn w) ofs =
      if ofs = pmp.fatofs cn + 1 then w.extractLsb' 8 8
      else if ofs = pmp.fatofs cn then w.extractLsb' 0 8
      else byteAt pmp disk ofs := by
  obtain ⟨hbn, hbo⟩ := h.sectors.fatblock_succ cn
  by_cases hsame : (pmp.fatblock ofs).1 = (pmp.fatblock (pmp.fatofs cn)).1
  · have hdiv : ofs / pmp.fatblocksize = pmp.fatofs cn / pmp.fatblocksize := by
      have hpos : 0 < pmp.fatblocksec := by
        have := h.sectors.fatblocksize_pos
        rw [h.sectors.fatblocksize_eq] at this
        exact Nat.pos_of_mul_pos_right this
      simp only [Mount.fatblock, Nat.add_right_cancel_iff] at hsame
      exact Nat.eq_of_mul_eq_mul_right hpos hsame
    have hmod := Nat.div_add_mod' ofs pmp.fatblocksize
    have hmod' := Nat.div_add_mod' (pmp.fatofs cn) pmp.fatblocksize
    rw [hdiv] at hmod
    have hin : byteAt pmp (written pmp disk cn w) ofs =
        putushort (disk (pmp.fatblock (pmp.fatofs cn)).1) (pmp.fatblock (pmp.fatofs cn)).2.2 w (pmp.fatblock ofs).2.2 := by
      rw [byteAt, hsame, written]
      exact congrFun (Function.update_self ..) _
    rw [hin, byteAt, hsame]
    simp only [putushort, Function.update_apply, Mount.fatblock]
    split_ifs <;> first | rfl | omega
  · have hne : ofs ≠ pmp.fatofs cn + 1 ∧ ofs ≠ pmp.fatofs cn := by
      refine ⟨fun he => hsame ?_, fun he => hsame (by rw [he])⟩
      rw [he, hbn]
    have hlt : (pmp.fatblock ofs).1 < (pmp.fatblock (pmp.fatofs cn)).1 + pmp.fatSecs := by
      have := h.sectors.block_lt hofs
      simp only [Mount.fatblock]
      omega
    rw [if_neg hne.1, if_neg hne.2, byteAt, byteAt, written]
    simp only [Function.update_of_ne hsame, updateotherfats_table hlt]

theorem fatentry_get (h : pmp.Ok) (h2 : CLUST_FIRST ≤ cn) (hcn : cn ≤ pmp.maxcluster) (disk : Disk) (v : BitVec 32) :
    fatentry true false pmp disk cn v =
      .ok (some (readEntry pmp.fat12 cn (wordAt pmp disk (pmp.fatofs cn))), disk) := by
  have hsize := h.sectors.bsize_le (h.entry_lt hcn)
  simp only [fatentry]
  rw [if_neg (by omega), if_neg (Nat.not_lt.2 hsize), h.sectors.getushort_eq]
  rfl

theorem fatentry_set (h : pmp.Ok) (h2 : CLUST_FIRST ≤ cn) (hcn : cn ≤ pmp.maxcluster) (disk : Disk) (v : BitVec 32) :
    fatentry false true pmp disk cn v =
      .ok (none, written pmp disk cn (writeEntry pmp.fat12 cn (wordAt pmp disk (pmp.fatofs cn)) v)) := by
  have hsize := h.sectors.bsize_le (h.entry_lt hcn)
  simp only [fatentry]
  rw [if_neg (by omega), if_neg (Nat.not_lt.2 hsize), h.sectors.getushort_eq]
  rfl

theorem wordAt_written_same (h : pmp.Ok) (hcn : cn ≤ pmp.maxcluster) (w : BitVec 16) :
    wordAt pmp (written pmp disk cn w) (pmp.fatofs cn) = w := by
  have hlt := h.entry_lt hcn
  rw [wordAt, byteAt_written h (by omega), byteAt_written h (by omega), if_pos rfl, if_neg (by omega), if_pos rfl]
  exact BitVec.extractLsb'_append_extractLsb' (w := 8)

end Blocks

/-! ## Entries -/

/-- The twelve bits of an entry. -/
def raw12 (cn : Nat) (w : BitVec 16) : BitVec 12 := w.extractLsb' (if cn % 2 = 1 then 4 else 0) 12

/-- A 12-bit entry in the form of a 16-bit one. -/
def widen (x : BitVec 12) : BitVec 32 :=
  if x.setWidth 32 &&& 0x0ff0 = (0x0ff0 : BitVec 32) then x.setWidth 32 ||| 0xf000 else x.setWidth 32

theorem readEntry_fat12 (cn : Nat) (w : BitVec 16) : readEntry true cn w = widen (raw12 cn w) := by
  have hbits : (if cn % 2 = 1 then w.setWidth 32 >>> 4 else w.setWidth 32) &&& 0x0fff = (raw12 cn w).setWidth 32 := by
    unfold raw12
    split
    · ext i hi
      interval_cases i <;> simp
    · ext i hi
      interval_cases i <;> simp
  simp only [readEntry, widen, if_true, hbits]

theorem widen_inj {x y : BitVec 12} (h : widen x = widen y) : x = y := by
  have hlow : ∀ z : BitVec 12, (widen z).setWidth 12 = z := by
    intro z
    unfold widen
    split
    · ext i hi
      interval_cases i <;> simp
    · simp
  rw [← hlow x, h, hlow]

theorem raw12_writeEntry (cn : Nat) (w : BitVec 16) (v : BitVec 32) : raw12 cn (writeEntry true cn w v) = v.setWidth 12 := by
  unfold raw12 writeEntry
  split
  · ext i hi
    interval_cases i <;> simp
  · ext i hi
    interval_cases i <;> simp

theorem getElem_word (hi lo : Byte) {i : Nat} (h : i < 16) :
    (hi ++ lo : BitVec 16)[i] = if i < 8 then lo.getLsbD i else hi.getLsbD (i - 8) := by
  rw [← BitVec.getLsbD_eq_getElem]
  exact BitVec.getLsbD_append

theorem raw12_next {c : Nat} (hc : c % 2 = 0) (hi : Byte) (w : BitVec 16) (v : BitVec 32) :
    raw12 (c + 1) (hi ++ (writeEntry true c w v).extractLsb' 8 8) =
      raw12 (c + 1) (hi ++ w.extractLsb' 8 8) ||| (v >>> 12 &&& 0xf).setWidth 12 := by
  have hodd : (c + 1) % 2 = 1 := by omega
  unfold raw12 writeEntry
  rw [if_pos hodd, if_pos rfl, if_neg (by omega)]
  ext i hi
  interval_cases i <;> simp [getElem_word]

theorem raw12_prev {c : Nat} (hc : c % 2 = 0) (lo : Byte) (w : BitVec 16) (v : BitVec 32) :
    raw12 c ((writeEntry true (c + 1) w v).extractLsb' 0 8 ++ lo) = raw12 c (w.extractLsb' 0 8 ++ lo) := by
  have hodd : (c + 1) % 2 = 1 := by omega
  unfold raw12 writeEntry
  rw [if_neg (by omega), if_pos rfl, if_pos hodd]
  ext i hi
  interval_cases i <;> simp [getElem_word]

/-! ## The table as an array -/

/-- `FAT_GET` -/
def fatGet (pmp : Mount) (disk : Disk) (cn : Nat) : Except Err (Option (BitVec 32)) :=
  (fatentry true false pmp disk cn 0).map Prod.fst

/-- The values the callers store. -/
def Stored (pmp : Mount) (v : BitVec 32) : Prop :=
  v = PCFSFREE ∨ v = CLUST_EOFE ∨ (CLUST_FIRST ≤ v.toNat ∧ v.toNat ≤ pmp.maxcluster)

/-- A value as it is read back: the special 12-bit values have their 16-bit form. -/
def form (pmp : Mount) (v : BitVec 32) : BitVec 32 :=
  if pmp.fat12 ∧ v &&& 0x0ff0 = 0x0ff0 then v ||| 0xf000 else v

/-- Storing `v` at `c` is seen at `c` and not at `d`. -/
def Faithful (pmp : Mount) (disk : Disk) (c d : Nat) (v : BitVec 32) : Prop :=
  ∃ disk', fatentry false true pmp disk c v = .ok (none, disk') ∧ fatGet pmp disk' c = .ok (some (form pmp v)) ∧
    (d ≠ c → fatGet pmp disk' d = fatGet pmp disk d)

/-- The value fits a 16-bit entry, and `CLUST_EOFE` is not stored in an even 12-bit
entry before an entry that has one of its last four bits clear. -/
def Fits (pmp : Mount) (disk : Disk) (c d : Nat) (v : BitVec 32) : Prop :=
  (pmp.fat12 = false → v.toNat < 2 ^ 16) ∧
    (pmp.fat12 = true → c % 2 = 0 → d = c + 1 → v = CLUST_EOFE →
      ∃ x, fatGet pmp disk d = .ok (some x) ∧ x &&& 0xf = 0xf)

section Array
variable {pmp : Mount} {disk : Disk} {c d : Nat} {v : BitVec 32}

theorem fatGet_eq (h : pmp.Ok) (h2 : CLUST_FIRST ≤ c) (hc : c ≤ pmp.maxcluster) (disk : Disk) :
    fatGet pmp disk c = .ok (some (readEntry pmp.fat12 c (wordAt pmp disk (pmp.fatofs c)))) := by
  rw [fatGet, fatentry_get h h2 hc]
  rfl

theorem fatGet_congr (h : pmp.Ok) (h2 : CLUST_FIRST ≤ c) (hc : c ≤ pmp.maxcluster) {disk' : Disk} :
    fatGet pmp disk' c = fatGet pmp disk c ↔
      readEntry pmp.fat12 c (wordAt pmp disk' (pmp.fatofs c)) = readEntry pmp.fat12 c (wordAt pmp disk (pmp.fatofs c)) := by
  rw [fatGet_eq h h2 hc, fatGet_eq h h2 hc]
  simp only [Except.ok.injEq, Option.some.injEq]

theorem wordAt_written_apart (h : pmp.Ok) (hd : d ≤ pmp.maxcluster)
    (hne : pmp.fatofs c + 2 ≤ pmp.fatofs d ∨ pmp.fatofs d + 2 ≤ pmp.fatofs c) (w : BitVec 16) :
    wordAt pmp (written pmp disk c w) (pmp.fatofs d) = wordAt pmp disk (pmp.fatofs d) := by
  have hlt := h.entry_lt hd
  rw [wordAt, byteAt_written h (by omega), byteAt_written h (by omega)]
  rw [if_neg (by omega), if_neg (by omega), if_neg (by omega), if_neg (by omega)]
  rfl

/-- The 12-bit entry behind an even one. -/
theorem wordAt_written_next (h : pmp.Ok) (hf : pmp.fat12 = true) (hc : c % 2 = 0) (hd : c + 1 ≤ pmp.maxcluster)
    (w : BitVec 16) :
    wordAt pmp (written pmp disk c w) (pmp.fatofs (c + 1)) =
      byteAt pmp disk (pmp.fatofs c + 2) ++ w.extractLsb' 8 8 := by
  have hlt := h.entry_lt hd
  have hofs : pmp.fatofs (c + 1) = pmp.fatofs c + 1 := by
    simp only [Mount.fatofs, hf, if_true]
    omega
  rw [wordAt, byteAt_written h (by omega), byteAt_written h (by omega), hofs, if_neg (by omega), if_neg (by omega),
    if_pos rfl]

/-- The 12-bit entry before an odd one. -/
theorem wordAt_written_prev (h : pmp.Ok) (hf : pmp.fat12 = true) (hd : d % 2 = 0) (hc : d + 1 ≤ pmp.maxcluster)
    (w : BitVec 16) :
    wordAt pmp (written pmp disk (d + 1) w) (pmp.fatofs d) = w.extractLsb' 0 8 ++ byteAt pmp disk (pmp.fatofs d) := by
  have hlt := h.entry_lt hc
  have hofs : pmp.fatofs (d + 1) = pmp.fatofs d + 1 := by
    simp only [Mount.fatofs, hf, if_true]
    omega
  rw [wordAt, byteAt_written h (by omega), byteAt_written h (by omega), hofs, if_neg (by omega), if_pos rfl,
    if_neg (by omega), if_neg (by omega)]

theorem wordAt_high (ofs : Nat) : (wordAt pmp disk ofs).extractLsb' 8 8 = byteAt pmp disk (ofs + 1) :=
  BitVec.extractLsb'_append_eq_left

theorem wordAt_low (ofs : Nat) : (wordAt pmp disk ofs).extractLsb' 0 8 = byteAt pmp disk ofs :=
  BitVec.extractLsb'_append_eq_right

/-- What storing at an even entry does to the 12 bits behind it. -/
theorem raw12_written_next (h : pmp.Ok) (hf : pmp.fat12 = true) (hc : c % 2 = 0) (hd : c + 1 ≤ pmp.maxcluster)
    (v : BitVec 32) :
    raw12 (c + 1) (wordAt pmp (written pmp disk c (writeEntry true c (wordAt pmp disk (pmp.fatofs c)) v))
        (pmp.fatofs (c + 1))) =
      raw12 (c + 1) (wordAt pmp disk (pmp.fatofs (c + 1))) ||| (v >>> 12 &&& 0xf).setWidth 12 := by
  have hofs : pmp.fatofs (c + 1) = pmp.fatofs c + 1 := by
    simp only [Mount.fatofs, hf, if_true]
    omega
  rw [wordAt_written_next h hf hc hd, raw12_next hc, wordAt_high, hofs]
  rfl

theorem raw12_written_prev (h : pmp.Ok) (hf : pmp.fat12 = true) (hd : d % 2 = 0) (hc : d + 1 ≤ pmp.maxcluster)
    (v : BitVec 32) :
    raw12 d (wordAt pmp (written pmp disk (d + 1) (writeEntry true (d + 1) (wordAt pmp disk (pmp.fatofs (d + 1))) v))
        (pmp.fatofs d)) =
      raw12 d (wordAt pmp disk (pmp.fatofs d)) := by
  have hofs : pmp.fatofs (d + 1) = pmp.fatofs d + 1 := by
    simp only [Mount.fatofs, hf, if_true]
    omega
  rw [wordAt_written_prev h hf hd hc, raw12_prev hd, wordAt_low, hofs]
  rfl

/-- A value that is stored has 12 bits, but for `CLUST_EOFE`. -/
theorem Stored.small (hf : pmp.fat12 = true) (hv : Stored pmp v) : v = CLUST_EOFE ∨ v.toNat < 2 ^ 12 := by
  have hmax : pmp.maxcluster ≤ 4086 := by simpa [Mount.fat12] using hf
  rcases hv with rfl | rfl | ⟨-, hv⟩
  · exact .inr (by decide)
  · exact .inl rfl
  · exact .inr (by omega)

theorem widen_form (hf : pmp.fat12 = true) (hv : Stored pmp v) : widen (v.setWidth 12) = form pmp v := by
  rcases hv.small hf with rfl | hlt
  · simp only [form, hf, true_and]
    decide
  · have hsame : (v.setWidth 12).setWidth 32 = v := by
      apply BitVec.eq_of_toNat_eq
      simp only [BitVec.toNat_setWidth]
      omega
    simp only [widen, form, hsame, hf, true_and]

theorem shift_small (hlt : v.toNat < 2 ^ 12) : v >>> 12 &&& 0xf = 0 := by
  have hzero : v >>> 12 = 0 := by
    apply BitVec.eq_of_toNat_eq
    simp only [BitVec.toNat_ushiftRight, Nat.shiftRight_eq_div_pow]
    exact Nat.div_eq_of_lt hlt
  rw [hzero]
  rfl

theorem widen_low (x : BitVec 12) : widen x &&& 0xf = 0xf ↔ x ||| 0xf = x := by
  have hlow : (widen x &&& 0xf) = (x &&& 0xf).setWidth 32 := by
    unfold widen
    split
    · ext i hi
      interval_cases i <;> simp
    · ext i hi
      interval_cases i <;> simp
  rw [hlow]
  clear hlow
  revert x
  decide +kernel

/-- A 12-bit table: an entry keeps its value unless it is behind an even one that gets
`CLUST_EOFE`. -/
theorem fat12_other (h : pmp.Ok) (hf : pmp.fat12 = true) (hc : c ≤ pmp.maxcluster) (hd : d ≤ pmp.maxcluster) (hne : d ≠ c)
    (hv : Stored pmp v) :
    raw12 d (wordAt pmp (written pmp disk c (writeEntry true c (wordAt pmp disk (pmp.fatofs c)) v)) (pmp.fatofs d)) =
        raw12 d (wordAt pmp disk (pmp.fatofs d)) ↔
      (c % 2 = 0 → d = c + 1 → v = CLUST_EOFE → widen (raw12 d (wordAt pmp disk (pmp.fatofs d))) &&& 0xf = 0xf) := by
  by_cases hnext : c % 2 = 0 ∧ d = c + 1
  · obtain ⟨heven, rfl⟩ := hnext
    rw [raw12_written_next h hf heven hd]
    rcases hv.small hf with rfl | hlt
    · have hbits : ((CLUST_EOFE >>> 12 &&& 0xf).setWidth 12 : BitVec 12) = 0xf := by decide
      rw [hbits, ← widen_low]
      exact ⟨fun hl _ _ _ => hl, fun hl => hl heven rfl rfl⟩
    · rw [shift_small hlt]
      refine ⟨fun _ _ _ he => ?_, fun _ => by simp⟩
      rw [he] at hlt
      exact absurd hlt (by decide)
  · refine ⟨fun _ heven hd' => absurd ⟨heven, hd'⟩ hnext, fun _ => ?_⟩
    by_cases hprev : c % 2 = 1 ∧ c = d + 1
    · obtain ⟨hodd, rfl⟩ := hprev
      exact raw12_written_prev h hf (by omega) hc v
    · rw [wordAt_written_apart h hd]
      simp only [Mount.fatofs, hf, if_true]
      omega

theorem readEntry_fat16 (w : BitVec 16) (v : BitVec 32) : readEntry false c (writeEntry false c w v) = v ↔ v.toNat < 2 ^ 16 := by
  simp only [readEntry, writeEntry, Bool.false_eq_true, if_false]
  constructor
  · intro he
    rw [← he, BitVec.toNat_setWidth, BitVec.toNat_setWidth]
    omega
  · intro hlt
    apply BitVec.eq_of_toNat_eq
    simp only [BitVec.toNat_setWidth]
    omega

/-- `fatentry` is an array exactly where `Fits` holds. -/
theorem fatentry_exact (h : pmp.Ok) (hc : CLUST_FIRST ≤ c ∧ c ≤ pmp.maxcluster) (hd : CLUST_FIRST ≤ d ∧ d ≤ pmp.maxcluster)
    (hv : Stored pmp v) : Faithful pmp disk c d v ↔ Fits pmp disk c d v := by
  have hset := fatentry_set h hc.1 hc.2 disk v
  have hown : fatGet pmp (written pmp disk c (writeEntry pmp.fat12 c (wordAt pmp disk (pmp.fatofs c)) v)) c =
      .ok (some (readEntry pmp.fat12 c (writeEntry pmp.fat12 c (wordAt pmp disk (pmp.fatofs c)) v))) := by
    rw [fatGet_eq h hc.1 hc.2, wordAt_written_same h hc.2]
  have hfaithful : Faithful pmp disk c d v ↔
      readEntry pmp.fat12 c (writeEntry pmp.fat12 c (wordAt pmp disk (pmp.fatofs c)) v) = form pmp v ∧
        (d ≠ c → fatGet pmp (written pmp disk c (writeEntry pmp.fat12 c (wordAt pmp disk (pmp.fatofs c)) v)) d =
          fatGet pmp disk d) := by
    simp only [Faithful, hset, Except.ok.injEq, Prod.mk.injEq, true_and, exists_eq_left', hown, Option.some.injEq]
  rw [hfaithful, fatGet_congr h hd.1 hd.2, Fits, fatGet_eq h hd.1 hd.2]
  simp only [Except.ok.injEq, Option.some.injEq, exists_eq_left']
  cases hf : pmp.fat12 with
  | true =>
    rw [readEntry_fat12, raw12_writeEntry, widen_form hf hv]
    simp only [true_and, reduceCtorEq, false_imp_iff, true_imp_iff, readEntry_fat12]
    by_cases hne : d = c
    · exact ⟨fun _ _ he => by omega, fun _ hn => absurd hne hn⟩
    · rw [← fat12_other h hf hc.2 hd.2 hne hv]
      exact ⟨fun hl => widen_inj (hl hne), fun hl _ => by rw [hl]⟩
  | false =>
    have hform : form pmp v = v := by simp [form, hf]
    have hother : d ≠ c → wordAt pmp (written pmp disk c (writeEntry false c (wordAt pmp disk (pmp.fatofs c)) v))
        (pmp.fatofs d) = wordAt pmp disk (pmp.fatofs d) := by
      intro hne
      refine wordAt_written_apart h hd.2 ?_ _
      simp only [Mount.fatofs, hf, Bool.false_eq_true, if_false]
      omega
    rw [hform, readEntry_fat16]
    refine ⟨fun hl => ⟨fun _ => hl.1, fun hn => by cases hn⟩, fun hl => ⟨hl.1 rfl, fun hne => ?_⟩⟩
    rw [hother hne]

end Array

/-- A disk of 1.44 MB. -/
def floppy : Mount := ⟨512, 9, 2, 1, 2848⟩

theorem floppy_ok : floppy.Ok := ⟨by decide, by decide⟩

def blank : Disk := fun _ _ => 0

theorem fatentry_exact_floppy : floppy.Ok ∧ Stored floppy CLUST_EOFE ∧ Faithful floppy blank 3 4 CLUST_EOFE := by
  have hv : Stored floppy CLUST_EOFE := .inr (.inl rfl)
  have hfits : Fits floppy blank 3 4 CLUST_EOFE := ⟨fun hf => absurd hf (by decide), fun _ hodd => absurd hodd (by decide)⟩
  exact ⟨floppy_ok, hv, (fatentry_exact floppy_ok (by decide) (by decide) hv).2 hfits⟩

/-- The end of a file at cluster 2 makes the free cluster 3 look used. -/
theorem fatentry_spills :
    Stored floppy CLUST_EOFE ∧ fatGet floppy blank 3 = .ok (some PCFSFREE) ∧
      (∃ disk', fatentry false true floppy blank 2 CLUST_EOFE = .ok (none, disk') ∧
        fatGet floppy disk' 3 = .ok (some 0xf)) ∧ ¬Faithful floppy blank 2 3 CLUST_EOFE := by
  have hset : ∃ disk', fatentry false true floppy blank 2 CLUST_EOFE = .ok (none, disk') ∧
      fatGet floppy disk' 3 = .ok (some 0xf) := ⟨_, rfl, rfl⟩
  refine ⟨.inr (.inl rfl), rfl, hset, ?_⟩
  rintro ⟨disk', he, -, hother⟩
  obtain ⟨disk'', he', hget⟩ := hset
  rw [he, Except.ok.injEq, Prod.mk.injEq] at he'
  rw [← he'.2, hother (by decide)] at hget
  cases hget

end BsdKernel.Dosfs
