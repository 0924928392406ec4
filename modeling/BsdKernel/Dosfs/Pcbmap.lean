import BsdKernel.Dosfs.Fat
import BsdKernel.Lib.Walk
/-!
# Where the clusters of a file are

`pcbmap`, `fc_lookup` and `fc_purge` of `dosfs/dosfs_fat.c`. A file has the clusters that
the table leads through from `de_StartCluster` (`Mounted.cluster`). `pcbmap` need not walk over all
of them: it sets out from the closest position in the cache of the denode, which
has the cluster mapped last and the last cluster of the file. The root directory is no
chain but an area of its own.
-/

namespace BsdKernel.Dosfs

variable {i k e : Nat}

/-- `struct fatcache` -/
structure Fatcache where
  frcn : UInt16
  fsrcn : UInt16
  deriving DecidableEq, Repr

def FCE_EMPTY : UInt16 := 0xffff

/-- What `pcbmap` uses of a denode; `lastmap` and `lastfc` are the two slots of `de_fc`. -/
structure Denode where
  directory : Bool
  startCluster : UInt16
  lastmap : Fatcache
  lastfc : Fatcache
  deriving DecidableEq, Repr

def Denode.fc (dep : Denode) : List Fatcache := [dep.lastmap, dep.lastfc]

def PCFSROOT : UInt16 := 0

/-- `PCFSEOF` -/
def PCFSEOF (cn : Nat) : Bool := cn &&& 0xfff8 == 0xfff8

/-- `struct pcfsmount` as `mountpcfs` leaves it, with the blocks of the volume and what
reading one fails with. -/
structure Mounted extends Mount where
  sectPerClust : UInt8
  rootdirblk : UInt32
  rootdirsize : UInt32
  firstcluster : UInt32
  disk : Disk
  breadError : Nat → Option Nat
  sectors : toMount.Sectors
  fatSecs_lt : fatSecs < 2 ^ 16
  clust : 0 < sectPerClust.toNat

namespace Mounted
variable (pmp : Mounted)

/-- `cntobn` -/
def cntobn (cn : Nat) : UInt32 := (UInt32.ofNat cn - 2) * pmp.sectPerClust.toUInt32 + pmp.firstcluster

/-- The size that `fatblock` finds for the block that is `bn` sectors into the table. -/
def blockSize (bn : Nat) : Nat := min pmp.fatblocksec ((2 ^ 32 + pmp.fatSecs - bn) % 2 ^ 32) * pmp.bytesPerSec

end Mounted

inductive MapError
  | E2BIG
  /-- What `bread` returns. -/
  | io (errno : Nat)
  deriving DecidableEq, Repr

/-- What a call returns, what it stores through its two pointers, and the denode. -/
structure Ret where
  error : Option MapError
  bnp : Option UInt32
  cnp : Option Nat
  dep : Denode
  deriving DecidableEq, Repr

section Code
variable (pmp : Mounted) (dep : Denode)

/-- One entry of the cache in the loop of `fc_lookup`. -/
def closer (findcn : Nat) (closest : Option Fatcache) (fc : Fatcache) : Option Fatcache :=
  if fc.frcn ≠ FCE_EMPTY ∧ fc.frcn.toNat ≤ findcn then
    match closest with
    | none => some fc
    | some c => if c.frcn < fc.frcn then some fc else some c
  else closest

/-- `fc_lookup`: the file relative and the file system relative number. -/
def fcLookup (findcn frcn fsrcn : Nat) : Nat × Nat :=
  match dep.fc.foldl (closer findcn) none with
  | none => (frcn, fsrcn)
  | some fc => (fc.frcn.toNat, fc.fsrcn.toNat)

/-- `fc_purge` -/
def fcPurge (frcn : Nat) : Denode :=
  let purge fc := if fc.frcn ≠ FCE_EMPTY ∧ frcn ≤ fc.frcn.toNat then { fc with frcn := FCE_EMPTY } else fc
  { dep with lastmap := purge dep.lastmap, lastfc := purge dep.lastfc }

/-- `fc_setcache`, which cuts both numbers. -/
def setcache (frcn fsrcn : Nat) : Fatcache := ⟨.ofNat frcn, .ofNat fsrcn⟩

/-- How the loop ends: with the number it has come to and the last one before, or with
the cluster that it looks for. -/
inductive Stop
  | hiteof (i prevcn : Nat)
  | found (i cn : Nat)
  | error (errno : Nat)
  /-- An access behind the end of the buffer. -/
  | fault
  deriving DecidableEq, Repr

/-- `bread` in the loop: the block that is in the buffer is not read again. -/
def fetch (bp_bn : Option Nat) (bn : Nat) : Option Nat := if bp_bn = some bn then none else pmp.breadError bn

/-- The loop of `pcbmap` with the test behind it. `bp_bn` is the block in the buffer. -/
def pcbmapLoop : Nat → Nat → Nat → Nat → Option Nat → Stop
  | 0, i, cn, prevcn, _ => if PCFSEOF cn then .hiteof i prevcn else .found i cn
  | turns + 1, i, cn, prevcn, bp_bn =>
    if PCFSEOF cn then .hiteof i prevcn
    else
      let (bn, _, bo) := pmp.fatblock (pmp.fatofs cn)
      match fetch pmp bp_bn bn with
      | some errno => .error errno
      | none =>
        if pmp.blockSize (bn - pmp.fatblk) < bo + 2 then .fault
        else
          let w := getushort (pmp.disk bn) bo
          pcbmapLoop turns (i + 1) (readEntry pmp.fat12 cn w).toNat cn (some bn)

/-- `pcbmap`, where `bnp` and `cnp` say which pointers are given and `prevcn` is what
that variable holds at the start. There is no result after an access behind a buffer. -/
def pcbmap (prevcn : Nat) (findcn : UInt32) (bnp cnp : Bool) : Option Ret :=
  if bnp = false ∧ cnp = false then some ⟨none, none, none, dep⟩
  else if dep.startCluster = PCFSROOT then
    if dep.directory then
      if findcn * pmp.sectPerClust.toUInt32 > pmp.rootdirsize then
        some ⟨some .E2BIG, none, if cnp then some (pmp.rootdirsize / pmp.sectPerClust.toUInt32).toNat else none, dep⟩
      else
        some ⟨none, if bnp then some (pmp.rootdirblk + findcn * pmp.sectPerClust.toUInt32) else none,
          if cnp then some PCFSROOT.toNat else none, dep⟩
    else some ⟨some .E2BIG, none, if cnp then some 0 else none, dep⟩
  else
    let (i, cn) := fcLookup dep findcn.toNat 0 dep.startCluster.toNat
    match pcbmapLoop pmp (findcn.toNat - i) i cn prevcn none with
    | .found i cn =>
      some ⟨none, if bnp then some (pmp.cntobn cn) else none, if cnp then some cn else none,
        { dep with lastmap := setcache i cn }⟩
    | .hiteof i prevcn =>
      some ⟨some .E2BIG, none, if cnp then some i else none, { dep with lastfc := setcache (UInt32.ofNat i - 1).toNat prevcn }⟩
    | .error errno => some ⟨some (.io errno), none, none, dep⟩
    | .fault => none

end Code

/-! ## The clusters of a file -/

namespace Mounted
variable (pmp : Mounted)

/-- The entry of a cluster. -/
def entry (cn : Nat) : Nat := (readEntry pmp.fat12 cn (wordAt pmp.toMount pmp.disk (pmp.fatofs cn))).toNat

/-- The table has the entry of a cluster. -/
def InTable (cn : Nat) : Prop := pmp.fatofs cn + 2 ≤ pmp.fatSecs * pmp.bytesPerSec

instance (cn : Nat) : Decidable (pmp.InTable cn) := inferInstanceAs (Decidable (_ ≤ _))

/-- The block that has the entry of a cluster. -/
def block (cn : Nat) : Nat := (pmp.fatblock (pmp.fatofs cn)).1

/-- The link of a cluster: a mark has none, nor has a cluster without an entry. -/
def next (cn : Nat) : Option Nat := if PCFSEOF cn ∨ ¬pmp.InTable cn then none else some (pmp.entry cn)

/-- The plain walk of the chain of a file. -/
def cluster (dep : Denode) (n : Nat) : Option Nat := Lib.walk pmp.next dep.startCluster.toNat n

/-- The root directory has as many clusters as are begun in its area. -/
def rootClusters : Nat := (pmp.rootdirsize.toNat + (pmp.sectPerClust.toNat - 1)) / pmp.sectPerClust.toNat

/-- A cluster of a file by its number in the file: its block, and its own number. -/
def Place (dep : Denode) (n : UInt32) (bn : UInt32) (cn : Nat) : Prop :=
  if dep.startCluster = PCFSROOT then
    dep.directory = true ∧ n.toNat < pmp.rootClusters ∧ bn = pmp.rootdirblk + n * pmp.sectPerClust.toUInt32 ∧
      cn = PCFSROOT.toNat
  else pmp.cluster dep n.toNat = some cn ∧ PCFSEOF cn = false ∧ bn = pmp.cntobn cn

/-- The number of clusters of a file. -/
def Count (dep : Denode) (k : Nat) : Prop :=
  if dep.startCluster = PCFSROOT then k = if dep.directory then pmp.rootClusters else 0
  else ∃ e, pmp.cluster dep k = some e ∧ PCFSEOF e = true

/-- Each entry of the cache is a cluster of the file. -/
def Cached (dep : Denode) : Prop :=
  ∀ fc ∈ dep.fc, fc.frcn ≠ FCE_EMPTY → pmp.cluster dep fc.frcn.toNat = some fc.fsrcn.toNat ∧ PCFSEOF fc.fsrcn.toNat = false

/-- The cluster is found, or the number of clusters is, and the cache stays correct. -/
def Agrees (dep : Denode) (findcn : UInt32) (bnp cnp : Bool) (r : Option Ret) : Prop :=
  ∃ ret, r = some ret ∧ pmp.Cached ret.dep ∧ ret.dep.startCluster = dep.startCluster ∧ ret.dep.directory = dep.directory ∧
    ((∃ bn cn, pmp.Place dep findcn bn cn ∧ ret.error = none ∧ (bnp → ret.bnp = some bn) ∧ (cnp → ret.cnp = some cn)) ∨
      ∃ k, pmp.Count dep k ∧ k ≤ findcn.toNat ∧ ret.error = some .E2BIG ∧ (cnp → ret.cnp = some k))

/-- No entry of the file is outside the table, as far as the cluster that is looked for. -/
def Walkable (dep : Denode) (n : Nat) : Prop :=
  ∀ j < n, ∀ cn, pmp.cluster dep j = some cn → PCFSEOF cn = false → pmp.InTable cn

/-- The blocks of the entries between the closest position in the cache and the cluster
that is looked for can be read. -/
def Readable (dep : Denode) (n : Nat) : Prop :=
  ∀ j < n, (∀ fc ∈ dep.fc, fc.frcn ≠ FCE_EMPTY → fc.frcn.toNat ≤ n → fc.frcn.toNat ≤ j) →
    ∀ cn, pmp.cluster dep j = some cn → PCFSEOF cn = false → pmp.breadError (pmp.block cn) = none

/-- The number of the cluster that is found is not cut to one of another cluster. -/
def Numbered (dep : Denode) (n : Nat) : Prop :=
  ∀ cn, pmp.cluster dep n = some cn → PCFSEOF cn = false → n % 2 ^ 16 = 0xffff ∨ pmp.cluster dep (n % 2 ^ 16) = some cn

/-- The condition for the root directory: the product does not wrap to a block inside,
and the number of clusters is exact. -/
def RootFits (n : UInt32) (cnp : Bool) : Prop :=
  n.toNat * pmp.sectPerClust.toNat < pmp.rootdirsize.toNat ∨
    (pmp.rootdirsize.toNat < n.toNat * pmp.sectPerClust.toNat % 2 ^ 32 ∧
      (cnp → pmp.sectPerClust.toNat ∣ pmp.rootdirsize.toNat))

def Fits (dep : Denode) (n : UInt32) (bnp cnp : Bool) : Prop :=
  if bnp = false ∧ cnp = false then ∃ bn cn, pmp.Place dep n bn cn
  else if dep.startCluster = PCFSROOT then dep.directory = true → pmp.RootFits n cnp
  else pmp.Walkable dep n.toNat ∧ pmp.Readable dep n.toNat ∧ pmp.Numbered dep n.toNat

end Mounted

/-! ## The cache -/

section Cache
variable {pmp : Mounted} {dep : Denode} {n : Nat}

/-- An entry that `fc_lookup` may take. -/
def Usable (n : Nat) (fc : Fatcache) : Prop := fc.frcn ≠ FCE_EMPTY ∧ fc.frcn.toNat ≤ n

theorem foldl_closer (l : List Fatcache) (c₀ : Option Fatcache) :
    (l.foldl (closer n) c₀ = none → c₀ = none ∧ ∀ fc ∈ l, ¬Usable n fc) ∧
      ∀ c, l.foldl (closer n) c₀ = some c → (c₀ = some c ∨ (c ∈ l ∧ Usable n c)) ∧
        (∀ c', c₀ = some c' → c'.frcn ≤ c.frcn) ∧ ∀ fc ∈ l, Usable n fc → fc.frcn ≤ c.frcn := by
  induction l generalizing c₀ with
  | nil =>
    refine ⟨fun h => ⟨h, by simp⟩, fun c h => ⟨.inl h, fun c' h' => ?_, by simp⟩⟩
    obtain rfl := Option.some.inj (h.symm.trans h')
    exact UInt16.le_refl _
  | cons fc l ih =>
    obtain ⟨hnone, hsome⟩ := ih (closer n c₀ fc)
    rw [List.foldl_cons]
    by_cases hu : Usable n fc
    · -- the entry is taken, or it is behind the one that was
      obtain ⟨c₁, hc₁, hmem, hle, hfc⟩ : ∃ c₁, closer n c₀ fc = some c₁ ∧ (c₀ = some c₁ ∨ c₁ = fc) ∧
          (∀ c', c₀ = some c' → c'.frcn ≤ c₁.frcn) ∧ fc.frcn ≤ c₁.frcn := by
        have hu' : fc.frcn ≠ FCE_EMPTY ∧ fc.frcn.toNat ≤ n := hu
        unfold closer
        rw [if_pos hu']
        cases c₀ with
        | none => exact ⟨fc, rfl, .inr rfl, fun c' h => (Option.some_ne_none c' h.symm).elim, UInt16.le_refl _⟩
        | some c =>
          simp only
          split_ifs with hlt
          · refine ⟨fc, rfl, .inr rfl, fun c' h => ?_, UInt16.le_refl _⟩
            obtain rfl := Option.some.inj h
            exact UInt16.le_of_lt hlt
          · refine ⟨c, rfl, .inl rfl, fun c' h => ?_, UInt16.not_lt.1 hlt⟩
            obtain rfl := Option.some.inj h
            exact UInt16.le_refl _
      refine ⟨fun h => ?_, fun c h => ?_⟩
      · rw [hc₁] at hnone
        exact absurd (hnone (hc₁ ▸ h)).1 (by simp)
      · obtain ⟨hm, hb, hl⟩ := hsome c h
        have hc := hb c₁ hc₁
        refine ⟨?_, fun c' h' => UInt16.le_trans (hle c' h') hc, fun x hx hux => ?_⟩
        · rcases hm with hm | ⟨hm, huc⟩
          · obtain rfl := Option.some.inj (hc₁.symm.trans hm)
            rcases hmem with h₀ | rfl
            · exact .inl h₀
            · exact .inr ⟨List.mem_cons_self, hu⟩
          · exact .inr ⟨List.mem_cons_of_mem _ hm, huc⟩
        · rcases List.mem_cons.1 hx with rfl | hx
          · exact UInt16.le_trans hfc hc
          · exact hl x hx hux
    · have hsame : closer n c₀ fc = c₀ := if_neg hu
      rw [hsame] at hnone hsome
      rw [hsame]
      refine ⟨fun h => ⟨(hnone h).1, fun x hx => ?_⟩, fun c h => ?_⟩
      · rcases List.mem_cons.1 hx with rfl | hx
        · exact hu
        · exact (hnone h).2 x hx
      · obtain ⟨hm, hb, hl⟩ := hsome c h
        refine ⟨hm.imp id fun h => ⟨List.mem_cons_of_mem _ h.1, h.2⟩, hb, fun x hx hux => ?_⟩
        rcases List.mem_cons.1 hx with rfl | hx
        · exact absurd hux hu
        · exact hl x hx hux

/-- The walk may set out from what a correct cache has closest. -/
theorem fcLookup_spec (h : pmp.Cached dep) {cn : Nat} (hi : fcLookup dep n 0 dep.startCluster.toNat = (i, cn)) :
    i ≤ n ∧ pmp.cluster dep i = some cn ∧ (i = 0 ∨ PCFSEOF cn = false) ∧
      ∀ j, i ≤ j ↔ ∀ fc ∈ dep.fc, fc.frcn ≠ FCE_EMPTY → fc.frcn.toNat ≤ n → fc.frcn.toNat ≤ j := by
  obtain ⟨hnone, hsome⟩ := foldl_closer (n := n) dep.fc none
  rw [fcLookup] at hi
  cases hc : dep.fc.foldl (closer n) none with
  | none =>
    rw [hc] at hi
    obtain ⟨rfl, rfl⟩ := Prod.mk.inj hi
    refine ⟨Nat.zero_le n, rfl, .inl rfl, fun j => iff_of_true (Nat.zero_le j) fun fc hfc hne hle => ?_⟩
    exact absurd ⟨hne, hle⟩ ((hnone hc).2 fc hfc)
  | some c =>
    rw [hc] at hi
    obtain ⟨rfl, rfl⟩ := Prod.mk.inj hi
    obtain ⟨hm, -, hl⟩ := hsome c hc
    obtain ⟨hmem, hu⟩ := hm.resolve_left (by simp)
    obtain ⟨hcl, heof⟩ := h c hmem hu.1
    refine ⟨hu.2, hcl, .inr heof, fun j => ⟨fun hj fc hfc hne hle => ?_, fun hall => hall c hmem hu.1 hu.2⟩⟩
    exact Nat.le_trans (hl fc hfc ⟨hne, hle⟩) hj

end Cache

/-! ## The walk -/

section Walk
variable {pmp : Mounted} {dep : Denode} {cn n : Nat}

theorem readEntry_lt (fat12 : Bool) (cn : Nat) (w : BitVec 16) : (readEntry fat12 cn w).toNat < 2 ^ 16 := by
  cases fat12 with
  | true =>
    rw [readEntry_fat12, widen]
    generalize (raw12 cn w) = x
    have hx := x.isLt
    have hset : (x.setWidth 32).toNat = x.toNat := by
      rw [BitVec.toNat_setWidth]
      exact Nat.mod_eq_of_lt (by omega)
    split
    · rw [BitVec.toNat_or, hset]
      exact Nat.or_lt_two_pow (by omega) (by decide)
    · omega
  | false =>
    have hw := w.isLt
    simp only [readEntry, Bool.false_eq_true, if_false, BitVec.toNat_setWidth]
    omega

theorem next_some {cn d : Nat} (h : pmp.next cn = some d) : PCFSEOF cn = false ∧ pmp.InTable cn ∧ d = pmp.entry cn := by
  unfold Mounted.next at h
  split_ifs at h with hc
  rw [not_or, not_not, Bool.not_eq_true] at hc
  exact ⟨hc.1, hc.2, (Option.some.inj h).symm⟩

theorem next_of (heof : PCFSEOF cn = false) (hin : pmp.InTable cn) : pmp.next cn = some (pmp.entry cn) := by
  rw [Mounted.next, if_neg (by simp [heof, hin])]

theorem next_mark (heof : PCFSEOF cn = true) : pmp.next cn = none := if_pos (.inl heof)

/-- All numbers of clusters have 16 bits. -/
theorem cluster_lt (h : pmp.cluster dep n = some cn) : cn < 2 ^ 16 := by
  cases n with
  | zero =>
    obtain rfl := Option.some.inj h
    exact dep.startCluster.toNat_lt
  | succ n =>
    obtain ⟨c, -, hc⟩ := Option.bind_eq_some_iff.1 h
    obtain ⟨-, -, rfl⟩ := next_some hc
    exact readEntry_lt ..

/-- A chain that ends has fewer clusters than there are numbers. -/
theorem mark_lt (h : pmp.cluster dep k = some e) (heof : PCFSEOF e = true) : k < 2 ^ 16 := by
  have hlt := Lib.walk_short h (next_mark heof) (Finset.range (2 ^ 16)) fun i _ c hc => Finset.mem_range.2 (cluster_lt hc)
  rwa [Finset.card_range] at hlt

theorem room (h : pmp.InTable cn) :
    ¬pmp.blockSize (pmp.block cn - pmp.fatblk) < (pmp.fatblock (pmp.fatofs cn)).2.2 + 2 := by
  have hsize := pmp.sectors.bsize_le h
  have hofs : pmp.fatofs cn < pmp.fatSecs * pmp.bytesPerSec := Nat.lt_of_lt_of_le (by omega) h
  have hblock := pmp.sectors.block_lt hofs
  have hsecs := pmp.fatSecs_lt
  simp only [Mounted.block, Mount.fatblock, Mounted.blockSize, Nat.add_sub_cancel] at hsize ⊢
  have hwrap : (2 ^ 32 + pmp.fatSecs - pmp.fatofs cn / pmp.fatblocksize * pmp.fatblocksec) % 2 ^ 32 =
      pmp.fatSecs - pmp.fatofs cn / pmp.fatblocksize * pmp.fatblocksec := by
    omega
  rw [hwrap]
  omega

/-- A block that the walk from `i` to `n` needs cannot be read. -/
def Blocked (pmp : Mounted) (dep : Denode) (i n : Nat) : Prop :=
  ∃ j cn, i ≤ j ∧ j < n ∧ pmp.cluster dep j = some cn ∧ PCFSEOF cn = false ∧ pmp.breadError (pmp.block cn) ≠ none

theorem pcbmapLoop_turn {turns prevcn : Nat} {bp_bn : Option Nat} (heof : PCFSEOF cn = false) (hin : pmp.InTable cn)
    (hbp : ∀ bn, bp_bn = some bn → pmp.breadError bn = none) :
    pcbmapLoop pmp (turns + 1) i cn prevcn bp_bn =
      match pmp.breadError (pmp.block cn) with
      | some errno => .error errno
      | none => pcbmapLoop pmp turns (i + 1) (pmp.entry cn) cn (some (pmp.block cn)) := by
  have hread : fetch pmp bp_bn (pmp.block cn) = pmp.breadError (pmp.block cn) := by
    unfold fetch
    split_ifs with hb
    · exact (hbp _ hb).symm
    · rfl
  have hroom := room hin
  rw [pcbmapLoop, if_neg (by simp [heof])]
  simp only [Mounted.block] at hread hroom ⊢
  simp only [hread, if_neg hroom, pmp.sectors.getushort_eq]
  rfl

/-- From the cluster with the number `i`, the walk finds the cluster with the number `i + turns`
or the end of the file, unless a block cannot be read. -/
theorem pcbmapLoop_spec (turns prevcn : Nat) (bp_bn : Option Nat) (hi : pmp.cluster dep i = some cn)
    (hin : pmp.Walkable dep (i + turns)) (hbp : ∀ bn, bp_bn = some bn → pmp.breadError bn = none) :
    (Blocked pmp dep i (i + turns) ∧ ∃ errno, pcbmapLoop pmp turns i cn prevcn bp_bn = .error errno) ∨
      (¬Blocked pmp dep i (i + turns) ∧
        ((∃ k e p, i ≤ k ∧ k ≤ i + turns ∧ pmp.cluster dep k = some e ∧ PCFSEOF e = true ∧
            pcbmapLoop pmp turns i cn prevcn bp_bn = .hiteof k p ∧ (i < k → pmp.cluster dep (k - 1) = some p)) ∨
          ∃ c, pmp.cluster dep (i + turns) = some c ∧ PCFSEOF c = false ∧
            pcbmapLoop pmp turns i cn prevcn bp_bn = .found (i + turns) c)) := by
  induction turns generalizing i cn prevcn bp_bn with
  | zero =>
    have hnot : ¬Blocked pmp dep i (i + 0) := fun ⟨j, _, hle, hlt, _⟩ => by omega
    refine .inr ⟨hnot, ?_⟩
    cases heof : PCFSEOF cn with
    | true => exact .inl ⟨i, cn, prevcn, Nat.le_refl i, by omega, hi, heof, by rw [pcbmapLoop, if_pos heof], fun h => by omega⟩
    | false => exact .inr ⟨cn, hi, heof, by rw [pcbmapLoop, if_neg (by simp [heof])]; rfl⟩
  | succ turns ih =>
    cases heof : PCFSEOF cn with
    | true =>
      -- behind the end there is nothing to read
      have hnot : ¬Blocked pmp dep i (i + (turns + 1)) := by
        rintro ⟨j, c, hle, hlt, hc, hne, -⟩
        rcases Nat.eq_or_lt_of_le hle with rfl | hlt'
        · obtain rfl := Option.some.inj (hi.symm.trans hc)
          rw [heof] at hne
          cases hne
        · obtain ⟨d, hd⟩ := Lib.walk_next hc hlt' hi
          rw [next_mark heof] at hd
          cases hd
      exact .inr ⟨hnot, .inl ⟨i, cn, prevcn, Nat.le_refl i, by omega, hi, heof, by rw [pcbmapLoop, if_pos heof],
        fun h => by omega⟩⟩
    | false =>
      have hrow := hin i (by omega) cn hi heof
      have hnext : pmp.cluster dep (i + 1) = some (pmp.entry cn) := (Lib.walk_succ hi).trans (next_of heof hrow)
      rw [pcbmapLoop_turn heof hrow hbp]
      have hsum : i + 1 + turns = i + (turns + 1) := by omega
      cases hb : pmp.breadError (pmp.block cn) with
      | some errno => exact .inl ⟨⟨i, cn, Nat.le_refl i, by omega, hi, heof, by simp [hb]⟩, errno, rfl⟩
      | none =>
        have hblocked : Blocked pmp dep (i + 1) (i + 1 + turns) ↔ Blocked pmp dep i (i + (turns + 1)) := by
          rw [hsum]
          refine ⟨fun ⟨j, c, hle, hrest⟩ => ⟨j, c, by omega, hrest⟩, fun ⟨j, c, hle, hlt, hc, hne, hbad⟩ => ?_⟩
          rcases Nat.eq_or_lt_of_le hle with rfl | hlt'
          · obtain rfl := Option.some.inj (hi.symm.trans hc)
            exact absurd hb hbad
          · exact ⟨j, c, hlt', hlt, hc, hne, hbad⟩
        have hrec := ih cn (some (pmp.block cn)) hnext (hsum ▸ hin) fun bn hbn => by
          rw [← Option.some.inj hbn, hb]
        simp only [hblocked] at hrec
        rcases hrec with hrec | ⟨hnot, ⟨k, e, p, hle, hk, hek, hee, he, hp⟩ | ⟨c, hc, hce, he⟩⟩
        · exact .inl hrec
        · refine .inr ⟨hnot, .inl ⟨k, e, p, by omega, by omega, hek, hee, he, fun hlt => ?_⟩⟩
          rcases Nat.eq_or_lt_of_le hle with rfl | hlt'
          · -- the end is behind this cluster
            have hprev : pcbmapLoop pmp turns (i + 1) (pmp.entry cn) cn (some (pmp.block cn)) = .hiteof (i + 1) cn := by
              obtain rfl := Option.some.inj (hnext.symm.trans hek)
              cases turns <;> rw [pcbmapLoop, if_pos hee]
            rw [hprev] at he
            cases he
            exact hi
          · exact hp hlt'
        · rw [hsum] at hc he
          exact .inr ⟨hnot, .inr ⟨c, hc, hce, he⟩⟩

theorem walkable_of_cluster (h : pmp.cluster dep n = some cn) : pmp.Walkable dep n := by
  intro j hj c hc _
  obtain ⟨d, hd⟩ := Lib.walk_next h hj hc
  exact (next_some hd).2.1

theorem walkable_of_mark (h : pmp.cluster dep k = some e) (heof : PCFSEOF e = true) (hk : k ≤ n) :
    pmp.Walkable dep n := by
  intro j hj c hc hne
  rcases Nat.lt_trichotomy j k with hlt | rfl | hgt
  · exact walkable_of_cluster h j hlt c hc hne
  · obtain rfl := Option.some.inj (h.symm.trans hc)
    rw [heof] at hne
    cases hne
  · obtain ⟨d, hd⟩ := Lib.walk_next hc hgt h
    rw [next_mark heof] at hd
    cases hd

theorem no_cluster (h : pmp.cluster dep k = some e) (heof : PCFSEOF e = true) (hk : k ≤ n)
    (hc : pmp.cluster dep n = some cn) : PCFSEOF cn = true := by
  rcases Nat.eq_or_lt_of_le hk with rfl | hlt
  · obtain rfl := Option.some.inj (h.symm.trans hc)
    exact heof
  · obtain ⟨d, hd⟩ := Lib.walk_next hc hlt h
    rw [next_mark heof] at hd
    cases hd

end Walk

/-! ## What a call does to the cache -/

section Cache
variable {pmp : Mounted} {dep : Denode} {cn n : Nat}

theorem setcache_frcn (frcn fsrcn : Nat) : (setcache frcn fsrcn).frcn.toNat = frcn % 2 ^ 16 := UInt16.toNat_ofNat'

theorem setcache_fsrcn (frcn : Nat) {fsrcn : Nat} (h : fsrcn < 2 ^ 16) : (setcache frcn fsrcn).fsrcn.toNat = fsrcn := by
  rw [setcache, UInt16.toNat_ofNat', Nat.mod_eq_of_lt h]

theorem ne_empty_iff (f : UInt16) : f ≠ FCE_EMPTY ↔ f.toNat ≠ 0xffff := by
  rw [ne_eq, ← UInt16.toNat_inj]
  rfl

/-- An entry of the cache is empty, or a cluster of the file. -/
def Correct (pmp : Mounted) (dep : Denode) (fc : Fatcache) : Prop :=
  fc.frcn ≠ FCE_EMPTY → pmp.cluster dep fc.frcn.toNat = some fc.fsrcn.toNat ∧ PCFSEOF fc.fsrcn.toNat = false

theorem cached_iff : pmp.Cached dep ↔ Correct pmp dep dep.lastmap ∧ Correct pmp dep dep.lastfc := by
  constructor
  · exact fun h => ⟨h _ List.mem_cons_self, h _ (List.mem_cons_of_mem _ List.mem_cons_self)⟩
  · rintro ⟨hmap, hfc⟩ fc hmem
    rcases List.mem_cons.1 hmem with rfl | hmem
    · exact hmap
    · obtain rfl := List.mem_singleton.1 hmem
      exact hfc

theorem correct_found (hc : pmp.cluster dep n = some cn) (heof : PCFSEOF cn = false) :
    Correct pmp dep (setcache n cn) ↔ n % 2 ^ 16 = 0xffff ∨ pmp.cluster dep (n % 2 ^ 16) = some cn := by
  rw [Correct, ne_empty_iff, setcache_frcn, setcache_fsrcn n (cluster_lt hc)]
  simp only [heof, and_true]
  exact Decidable.imp_iff_not_or.trans (or_congr_left not_not)

/-- The last cluster of the file is cached at the end, and nothing where there is none. -/
theorem correct_last {p : Nat} (hk : pmp.cluster dep k = some e) (heof : PCFSEOF e = true)
    (hp : 0 < k → pmp.cluster dep (k - 1) = some p) : Correct pmp dep (setcache (UInt32.ofNat k - 1).toNat p) := by
  have hlt := mark_lt hk heof
  intro hne
  rw [ne_empty_iff, setcache_frcn] at hne
  have hpos : 0 < k := by
    by_contra hzero
    obtain rfl : k = 0 := by omega
    exact hne rfl
  have hlast := hp hpos
  obtain ⟨d, hd⟩ := Lib.walk_next hk (show k - 1 < k by omega) hlast
  have hindex : (UInt32.ofNat k - 1).toNat % 2 ^ 16 = k - 1 := by
    rw [UInt32.toNat_sub, UInt32.toNat_ofNat', UInt32.toNat_one]
    omega
  rw [setcache_frcn, setcache_fsrcn _ (cluster_lt hlast), hindex]
  exact ⟨hlast, (next_some hd).1⟩

theorem fcPurge_cached (h : pmp.Cached dep) {pmp' : Mounted} {frcn : Nat}
    (hsame : ∀ n < frcn, pmp'.cluster dep n = pmp.cluster dep n) : pmp'.Cached (fcPurge dep frcn) := by
  have hpurge : ∀ fc, Correct pmp dep fc →
      Correct pmp' dep (if fc.frcn ≠ FCE_EMPTY ∧ frcn ≤ fc.frcn.toNat then { fc with frcn := FCE_EMPTY } else fc) := by
    intro fc hfc hne
    split_ifs at hne ⊢ with hold
    · exact absurd rfl hne
    · obtain ⟨hc, heof⟩ := hfc hne
      rw [hsame _ (Nat.lt_of_not_le (not_and.1 hold hne))]
      exact ⟨hc, heof⟩
  obtain ⟨hmap, hfc⟩ := cached_iff.1 h
  exact cached_iff.2 ⟨hpurge _ hmap, hpurge _ hfc⟩

end Cache

/-! ## The call -/

section Call
variable {pmp : Mounted} {dep : Denode} {n : UInt32} {bnp cnp : Bool}

theorem agrees_walkable (hroot : dep.startCluster ≠ PCFSROOT) {r : Option Ret} (h : pmp.Agrees dep n bnp cnp r) :
    pmp.Walkable dep n.toNat := by
  obtain ⟨ret, -, -, -, -, ⟨bn, cn, hplace, -⟩ | ⟨k, hcount, hk, -⟩⟩ := h
  · rw [Mounted.Place, if_neg hroot] at hplace
    exact walkable_of_cluster hplace.1
  · rw [Mounted.Count, if_neg hroot] at hcount
    obtain ⟨e, he, heof⟩ := hcount
    exact walkable_of_mark he heof hk

/-- An error other than `E2BIG` is no answer. -/
theorem not_agrees_io {errno : Nat} : ¬pmp.Agrees dep n bnp cnp (some ⟨some (.io errno), none, none, dep⟩) := by
  rintro ⟨ret, hret, -, -, -, ⟨_, _, -, herr, -⟩ | ⟨_, -, -, herr, -⟩⟩
  · obtain rfl := Option.some.inj hret
    cases herr
  · obtain rfl := Option.some.inj hret
    cases herr

theorem agrees_end (h : pmp.Cached dep) (hroot : dep.startCluster ≠ PCFSROOT) {fc : Fatcache}
    (hk : pmp.cluster dep k = some e) (heof : PCFSEOF e = true) (hle : k ≤ n.toNat) (hfc : Correct pmp dep fc) :
    pmp.Agrees dep n bnp cnp (some ⟨some .E2BIG, none, if cnp then some k else none, { dep with lastfc := fc }⟩) := by
  have hcount : pmp.Count dep k := by
    rw [Mounted.Count, if_neg hroot]
    exact ⟨e, hk, heof⟩
  exact ⟨_, rfl, cached_iff.2 ⟨(cached_iff.1 h).1, hfc⟩, rfl, rfl, .inr ⟨k, hcount, hle, rfl, fun hcnp => if_pos hcnp⟩⟩

/-- The cluster, with an entry that may be wrong. -/
theorem agrees_found (h : pmp.Cached dep) (hroot : dep.startCluster ≠ PCFSROOT) {c : Nat} {fc : Fatcache}
    (hc : pmp.cluster dep n.toNat = some c) (heof : PCFSEOF c = false) :
    pmp.Agrees dep n bnp cnp (some ⟨none, if bnp then some (pmp.cntobn c) else none, if cnp then some c else none,
      { dep with lastmap := fc }⟩) ↔ Correct pmp dep fc := by
  constructor
  · rintro ⟨ret, hret, hcached, -⟩
    obtain rfl := Option.some.inj hret
    exact (cached_iff.1 hcached).1
  · intro hfc
    have hplace : pmp.Place dep n (pmp.cntobn c) c := by
      rw [Mounted.Place, if_neg hroot]
      exact ⟨hc, heof, rfl⟩
    exact ⟨_, rfl, cached_iff.2 ⟨hfc, (cached_iff.1 h).2⟩, rfl, rfl,
      .inl ⟨_, c, hplace, rfl, fun hb => if_pos hb, fun hb => if_pos hb⟩⟩

/-- The call for a file with clusters. -/
theorem agrees_file (h : pmp.Cached dep) (prevcn : Nat) (hnull : ¬(bnp = false ∧ cnp = false)) (hroot : dep.startCluster ≠ PCFSROOT) :
    pmp.Agrees dep n bnp cnp (pcbmap pmp dep prevcn n bnp cnp) ↔
      pmp.Walkable dep n.toNat ∧ pmp.Readable dep n.toNat ∧ pmp.Numbered dep n.toNat := by
  by_cases hin : pmp.Walkable dep n.toNat
  · obtain ⟨⟨i, cn⟩, hfc⟩ : ∃ p, fcLookup dep n.toNat 0 dep.startCluster.toNat = p := ⟨_, rfl⟩
    obtain ⟨hle, hi, hstart, hnear⟩ := fcLookup_spec h hfc
    have hsum : i + (n.toNat - i) = n.toNat := Nat.add_sub_cancel' hle
    have hread : pmp.Readable dep n.toNat ↔ ¬Blocked pmp dep i n.toNat := by
      refine ⟨fun hr ⟨j, c, hij, hj, hc, hne, hbad⟩ => hbad (hr j hj ((hnear j).1 hij) c hc hne), fun hnot j hj hall c hc hne => ?_⟩
      by_contra hbad
      exact hnot ⟨j, c, (hnear j).2 hall, hj, hc, hne, hbad⟩
    have hspec := pcbmapLoop_spec (n.toNat - i) prevcn none hi (hsum.symm ▸ hin) (fun bn hbn => by cases hbn)
    rw [hsum] at hspec
    rw [hread, pcbmap, if_neg hnull, if_neg hroot, hfc]
    simp only
    rcases hspec with ⟨hblocked, errno, he⟩ | ⟨hnot, ⟨k, e, p, hik, hk, hek, hee, he, hp⟩ | ⟨c, hc, hce, he⟩⟩
    · rw [he]
      exact iff_of_false not_agrees_io fun hall => hall.2.1 hblocked
    · have hlast : Correct pmp dep (setcache (UInt32.ofNat k - 1).toNat p) := by
        refine correct_last hek hee fun hpos => hp ?_
        rcases hstart with rfl | hne
        · exact hpos
        · refine Nat.lt_of_le_of_ne hik ?_
          rintro rfl
          rw [Option.some.inj (hi.symm.trans hek), hee] at hne
          cases hne
      rw [he]
      refine iff_of_true (agrees_end h hroot hek hee hk hlast) ⟨hin, hnot, fun c hc hce => ?_⟩
      rw [no_cluster hek hee hk hc] at hce
      cases hce
    · rw [he]
      simp only
      rw [agrees_found h hroot hc hce, correct_found hc hce]
      refine ⟨fun hnum => ⟨hin, hnot, fun c' hc' _ => ?_⟩, fun hall => hall.2.2 c hc hce⟩
      obtain rfl := Option.some.inj (hc.symm.trans hc')
      exact hnum
  · exact iff_of_false (fun hagrees => hin (agrees_walkable hroot hagrees)) fun hall => hin hall.1

theorem lt_rootClusters (pmp : Mounted) (m : Nat) : m < pmp.rootClusters ↔ m * pmp.sectPerClust.toNat < pmp.rootdirsize.toNat := by
  have hclust := pmp.clust
  rw [Mounted.rootClusters, ← Nat.succ_le_iff, Nat.le_div_iff_mul_le hclust, Nat.succ_mul]
  omega

theorem rootClusters_exact :
    pmp.rootdirsize.toNat / pmp.sectPerClust.toNat = pmp.rootClusters ↔ pmp.sectPerClust.toNat ∣ pmp.rootdirsize.toNat := by
  have hclust := pmp.clust
  unfold Mounted.rootClusters
  generalize pmp.rootdirsize.toNat = r at *
  generalize pmp.sectPerClust.toNat = s at *
  constructor
  · intro he
    have hle := Nat.div_mul_le_self r s
    have hlt := Nat.lt_div_mul_add (a := r + (s - 1)) hclust
    rw [← he] at hlt
    exact ⟨r / s, by rw [Nat.mul_comm]; omega⟩
  · rintro ⟨q, rfl⟩
    rw [Nat.mul_div_cancel_left q hclust, Nat.mul_add_div hclust, Nat.div_eq_of_lt (by omega), Nat.add_zero]

/-- The call for the root directory. -/
theorem agrees_root (h : pmp.Cached dep) (prevcn : Nat) (hnull : ¬(bnp = false ∧ cnp = false)) (hroot : dep.startCluster = PCFSROOT)
    (hdir : dep.directory = true) :
    pmp.Agrees dep n bnp cnp (pcbmap pmp dep prevcn n bnp cnp) ↔ pmp.RootFits n cnp := by
  have hmul : (n * pmp.sectPerClust.toUInt32).toNat = n.toNat * pmp.sectPerClust.toNat % 2 ^ 32 := by
    rw [UInt32.toNat_mul, UInt8.toNat_toUInt32]
  have hlt := lt_rootClusters pmp n.toNat
  rw [pcbmap, if_neg hnull, if_pos hroot, if_pos hdir, Mounted.RootFits]
  by_cases hbig : n * pmp.sectPerClust.toUInt32 > pmp.rootdirsize
  · have hbig' : pmp.rootdirsize.toNat < n.toNat * pmp.sectPerClust.toNat % 2 ^ 32 := by
      rw [← hmul]
      exact UInt32.lt_iff_toNat_lt.1 hbig
    have hwrap := Nat.mod_le (n.toNat * pmp.sectPerClust.toNat) (2 ^ 32)
    rw [if_pos hbig]
    have hdiv : (pmp.rootdirsize / pmp.sectPerClust.toUInt32).toNat = pmp.rootdirsize.toNat / pmp.sectPerClust.toNat := by
      rw [UInt32.toNat_div, UInt8.toNat_toUInt32]
    constructor
    · rintro ⟨ret, hret, -, -, -, ⟨_, _, -, herr, -⟩ | ⟨k, hcount, -, -, hcnp⟩⟩
      · obtain rfl := Option.some.inj hret
        cases herr
      · obtain rfl := Option.some.inj hret
        refine .inr ⟨hbig', fun hc => rootClusters_exact.1 ?_⟩
        have hk := hcnp hc
        rw [Mounted.Count, if_pos hroot, if_pos hdir] at hcount
        simp only [if_pos hc, hdiv] at hk
        rw [Option.some.inj hk, hcount]
    · intro hfits
      obtain ⟨-, hexact⟩ := hfits.resolve_left (by omega)
      refine ⟨_, rfl, h, rfl, rfl, .inr ⟨pmp.rootClusters, ?_, by omega, rfl, fun hc => ?_⟩⟩
      · rw [Mounted.Count, if_pos hroot, if_pos hdir]
      · simp only [if_pos hc, hdiv, rootClusters_exact.2 (hexact hc)]
  · have hsmall : ¬pmp.rootdirsize.toNat < n.toNat * pmp.sectPerClust.toNat % 2 ^ 32 := by
      rw [← hmul]
      exact fun hl => hbig (UInt32.lt_iff_toNat_lt.2 hl)
    rw [if_neg hbig]
    constructor
    · rintro ⟨ret, hret, -, -, -, ⟨bn, cn, hplace, -⟩ | ⟨_, -, -, herr, -⟩⟩
      · rw [Mounted.Place, if_pos hroot] at hplace
        exact .inl (hlt.1 hplace.2.1)
      · obtain rfl := Option.some.inj hret
        cases herr
    · intro hfits
      have hinside := hfits.resolve_right fun hr => hsmall hr.1
      refine ⟨_, rfl, h, rfl, rfl, .inl ⟨_, PCFSROOT.toNat, ?_, rfl, fun hb => if_pos hb, fun hc => if_pos hc⟩⟩
      rw [Mounted.Place, if_pos hroot]
      exact ⟨hdir, hlt.2 hinside, rfl, rfl⟩

theorem agrees_empty (h : pmp.Cached dep) (prevcn : Nat) (hnull : ¬(bnp = false ∧ cnp = false)) (hroot : dep.startCluster = PCFSROOT)
    (hdir : ¬dep.directory = true) : pmp.Agrees dep n bnp cnp (pcbmap pmp dep prevcn n bnp cnp) := by
  rw [pcbmap, if_neg hnull, if_pos hroot, if_neg hdir]
  refine ⟨_, rfl, h, rfl, rfl, .inr ⟨0, ?_, Nat.zero_le _, rfl, fun hc => if_pos hc⟩⟩
  rw [Mounted.Count, if_pos hroot, if_neg hdir]

theorem agrees_null (h : pmp.Cached dep) (prevcn : Nat) (hnull : bnp = false ∧ cnp = false) :
    pmp.Agrees dep n bnp cnp (pcbmap pmp dep prevcn n bnp cnp) ↔ ∃ bn cn, pmp.Place dep n bn cn := by
  obtain ⟨rfl, rfl⟩ := hnull
  rw [pcbmap, if_pos ⟨rfl, rfl⟩]
  constructor
  · rintro ⟨ret, hret, -, -, -, ⟨bn, cn, hplace, -⟩ | ⟨_, -, -, herr, -⟩⟩
    · exact ⟨bn, cn, hplace⟩
    · obtain rfl := Option.some.inj hret
      cases herr
  · rintro ⟨bn, cn, hplace⟩
    refine ⟨_, rfl, h, rfl, rfl, .inl ⟨bn, cn, hplace, rfl, ?_, ?_⟩⟩
    · exact fun hb => absurd hb Bool.false_ne_true
    · exact fun hc => absurd hc Bool.false_ne_true

/-- With a correct cache, `pcbmap` agrees with the plain walk exactly where `Fits` holds. -/
theorem pcbmap_iff (h : pmp.Cached dep) (prevcn : Nat) (n : UInt32) (bnp cnp : Bool) :
    pmp.Agrees dep n bnp cnp (pcbmap pmp dep prevcn n bnp cnp) ↔ pmp.Fits dep n bnp cnp := by
  unfold Mounted.Fits
  split_ifs with hnull hroot
  · exact agrees_null h prevcn hnull
  · by_cases hdir : dep.directory = true
    · rw [agrees_root h prevcn hnull hroot hdir]
      exact ⟨fun hfits _ => hfits, fun hfits => hfits hdir⟩
    · exact iff_of_true (agrees_empty h prevcn hnull hroot hdir) fun hd => absurd hd hdir
  · exact agrees_file h prevcn hnull hroot

end Call

/-- A disk of 1.44 MB: the root directory has 14 sectors, a cluster has one. -/
def floppyMounted : Mounted where
  toMount := floppy
  sectPerClust := 1
  rootdirblk := 19
  rootdirsize := 14
  firstcluster := 33
  disk := blank
  breadError := fun _ => none
  sectors := floppy_ok.sectors
  fatSecs_lt := by decide
  clust := by decide

/-- The root directory, with nothing cached. -/
def rootDenode : Denode := ⟨true, PCFSROOT, ⟨FCE_EMPTY, 0⟩, ⟨FCE_EMPTY, 0⟩⟩

theorem rootDenode_root : rootDenode.startCluster = PCFSROOT := rfl

theorem rootDenode_cached : floppyMounted.Cached rootDenode :=
  cached_iff.2 ⟨fun h => absurd rfl h, fun h => absurd rfl h⟩

theorem pcbmap_root_inside : floppyMounted.Cached rootDenode ∧ floppyMounted.Fits rootDenode 13 true true ∧
    floppyMounted.Agrees rootDenode 13 true true (pcbmap floppyMounted rootDenode 0 13 true true) := by
  have hfits : floppyMounted.Fits rootDenode 13 true true := by
    rw [Mounted.Fits, if_neg (by decide), if_pos rootDenode_root]
    exact fun _ => .inl (by decide)
  exact ⟨rootDenode_cached, hfits, (pcbmap_iff rootDenode_cached 0 13 true true).2 hfits⟩

/-- The root directory has the clusters 0 to 13, and its cluster 14 is found at the first block behind it. -/
theorem pcbmap_root_behind :
    floppyMounted.Cached rootDenode ∧ floppyMounted.Count rootDenode 14 ∧
      pcbmap floppyMounted rootDenode 0 14 true true = some ⟨none, some 33, some 0, rootDenode⟩ ∧
      ¬floppyMounted.Agrees rootDenode 14 true true (pcbmap floppyMounted rootDenode 0 14 true true) := by
  have hcall : pcbmap floppyMounted rootDenode 0 14 true true = some ⟨none, some 33, some 0, rootDenode⟩ := by decide
  refine ⟨rootDenode_cached, ?_, hcall, ?_⟩
  · rw [Mounted.Count, if_pos rootDenode_root]
    decide
  · rw [hcall]
    rintro ⟨ret, hret, -, -, -, ⟨bn, cn, hplace, -⟩ | ⟨_, -, -, herr, -⟩⟩
    · rw [Mounted.Place, if_pos rootDenode_root] at hplace
      exact absurd hplace.2.1 (by decide)
    · obtain rfl := Option.some.inj hret
      cases herr

end BsdKernel.Dosfs
