import BsdKernel.Lib.Trace
import Mathlib.Data.Finset.Card
import Mathlib.Data.BitVec
import Mathlib.Tactic
/-!
# Allocating clusters

`clusteralloc`, `clusterfree`, `freeclusterchain`, `fillinusemap` and `extendfile` of
`dosfs/dosfs_fat.c`, with the file allocation table as an array. A free cluster is
known in four ways: its entry in the table is zero, its bit in `pm_inusemap` is clear,
`pm_freeclustercount` counts it, and `pm_lookhere` is not above it. `Inv` says that they
agree.

`freeclusterchain` goes on as long as an entry is the number of a cluster of the file
system, so the mark at the end of the chain must not be one; `Fits` is that condition.
-/

namespace BsdKernel.Dosfs.Alloc

open Lib

variable {fat : Nat → Nat} {c cn n : Nat} {s : Sys}

def CLUST_FIRST : Nat := 2

def CLUST_EOFE : Nat := 0xffff

/-- `PCFSEOF` -/
def PCFSEOF (cn : Nat) : Bool := cn &&& 0xfff8 == 0xfff8

/-- The fields of `struct pcfsmount`, and the table. -/
structure Fs where
  maxcluster : Nat
  fat : Nat → Nat
  inusemap : Nat → BitVec 8
  freeclustercount : Int
  lookhere : Nat

inductive Errno
  | EINVAL | ENOSPC
  deriving DecidableEq, Repr

section Code
variable (fs : Fs)

/-- The bit of a cluster in `pm_inusemap`. -/
def Fs.bit (cn : Nat) : Bool := (fs.inusemap (cn / 8)).getLsbD (cn % 8)

def usemapAlloc (cn : Nat) : Fs :=
  { fs with
    inusemap := Function.update fs.inusemap (cn / 8) (fs.inusemap (cn / 8) ||| BitVec.twoPow 8 (cn % 8))
    freeclustercount := fs.freeclustercount - 1
    lookhere := cn + 1 }

def usemapFree (cn : Nat) : Fs :=
  { fs with
    freeclustercount := fs.freeclustercount + 1
    inusemap := Function.update fs.inusemap (cn / 8) (fs.inusemap (cn / 8) &&& ~~~BitVec.twoPow 8 (cn % 8))
    lookhere := if fs.lookhere > cn then cn else fs.lookhere }

/-- The clusters of the file system. -/
def Fs.Valid (cn : Nat) : Prop := CLUST_FIRST ≤ cn ∧ cn ≤ fs.maxcluster

instance (cn : Nat) : Decidable (fs.Valid cn) := inferInstanceAs (Decidable (_ ∧ _))

/-- `fatentry` with `FAT_SET`. -/
def fatSet (cn v : Nat) : Except Errno Fs :=
  if fs.Valid cn then .ok { fs with fat := Function.update fs.fat cn v } else .error .EINVAL

/-- `clusterfree`: the old entry is returned as well. -/
def clusterfree (cn : Nat) : Except Errno (Nat × Fs) :=
  (fatSet fs cn 0).map fun fs' => (fs.fat cn, usemapFree fs' cn)

/-- The lowest clear bit of a byte. -/
def clearBit (map : BitVec 8) : Option Nat := (List.range 8).find? fun bit => !map.getLsbD bit

/-- The search of `clusteralloc`. -/
def search : Option Nat :=
  (List.range' (fs.lookhere / 8) (fs.maxcluster / 8 + 1 - fs.lookhere / 8)).findSome? fun idx =>
    if fs.inusemap idx ≠ 0xff then (clearBit (fs.inusemap idx)).map fun bit => idx * 8 + bit else none

def clusteralloc (fillwith : Nat) : Except Errno (Nat × Fs) :=
  match search fs with
  | none => .error .ENOSPC
  | some cn => (fatSet fs cn fillwith).map fun fs => (cn, usemapAlloc fs cn)

/-- `freeclusterchain`, at most so many turns; `none` is a loop that goes on. -/
def freeclusterchain : Nat → Fs → Nat → Option Fs
  | n, fs, cn =>
    if fs.Valid cn then
      match n, clusterfree fs cn with
      | 0, _ => none
      | n + 1, .ok (next, fs) => freeclusterchain n fs next
      | _ + 1, .error _ => some fs
    else some fs

/-- `fillinusemap` -/
def fillinusemap : Fs :=
  (List.range' CLUST_FIRST (fs.maxcluster + 1 - CLUST_FIRST)).foldl
    (fun fs cn => if fs.fat cn = 0 then usemapFree fs cn else fs)
    { fs with inusemap := fun _ => 0xff, freeclustercount := 0, lookhere := fs.maxcluster + 1 }

end Code

/-! ## Files -/

/-- `struct fatcache`; both are `u_short`. -/
structure FatCache where
  frcn : Nat
  fsrcn : Nat
  deriving DecidableEq, Repr

def FCE_EMPTY : Nat := 0xffff

/-- `fc_setcache` -/
def setcache (frcn fsrcn : Nat) : FatCache := ⟨frcn % 2 ^ 16, fsrcn % 2 ^ 16⟩

/-- What `extendfile` uses of a denode. -/
structure Denode where
  vroot : Bool
  startCluster : Nat
  lastmap : FatCache
  lastfc : FatCache
  deriving DecidableEq, Repr

/-- The loop of `pcbmap` up to `findcn`: the file ends before it (`E2BIG`), or the
cluster is found. `prevcn` is not set before the first turn. -/
def pcbmapLoop (fat : Nat → Nat) : Nat → Nat → Nat → Option Nat → (Nat × Option Nat) ⊕ (Nat × Nat)
  | 0, i, cn, prevcn => if PCFSEOF cn then .inl (i, prevcn) else .inr (i, cn)
  | n + 1, i, cn, prevcn => if PCFSEOF cn then .inl (i, prevcn) else pcbmapLoop fat n (i + 1) (fat cn) (some cn)

/-- `pcbmap` of a file that is not empty, with `fc_lookup`. -/
def pcbmap (fs : Fs) (dep : Denode) (findcn : Nat) : (Nat × Option Nat) ⊕ (Nat × Nat) :=
  let (i, cn) :=
    if dep.lastfc.frcn ≠ FCE_EMPTY ∧ dep.lastfc.frcn ≤ findcn ∧
        (dep.lastmap.frcn = FCE_EMPTY ∨ findcn < dep.lastmap.frcn ∨ dep.lastmap.frcn < dep.lastfc.frcn) then
      (dep.lastfc.frcn, dep.lastfc.fsrcn)
    else if dep.lastmap.frcn ≠ FCE_EMPTY ∧ dep.lastmap.frcn ≤ findcn then (dep.lastmap.frcn, dep.lastmap.fsrcn)
    else (0, dep.startCluster)
  pcbmapLoop fs.fat (findcn - i) i cn none

/-- The end of `extendfile`, once the last cluster of the file is cached: the cluster
that was taken, the file and the file system. -/
def extendLast (fs : Fs) (dep : Denode) : Option Nat × Denode × Fs :=
  match clusteralloc fs CLUST_EOFE with
  | .error _ => (none, dep, fs)
  | .ok (cn, fs) =>
    if dep.startCluster = 0 then (some cn, { dep with startCluster := cn, lastfc := setcache 0 cn }, fs)
    else
      match fatSet fs dep.lastfc.fsrcn cn with
      | .ok fs => (some cn, { dep with lastfc := setcache (dep.lastfc.frcn + 1) cn }, fs)
      | .error _ =>
        match clusterfree fs cn with
        | .ok (_, fs) => (none, dep, fs)
        | .error _ => (none, dep, fs)

/-- `extendfile`. There is no result where `pcbmap` stores a variable that was not set. -/
def extendfile (fs : Fs) (dep : Denode) : Option (Option Nat × Denode × Fs) :=
  if dep.vroot then some (none, dep, fs)
  else if dep.lastfc.frcn = FCE_EMPTY ∧ dep.startCluster ≠ 0 then
    match pcbmap fs dep 0xffff with
    | .inr (i, cn) => some (none, { dep with lastmap := setcache i cn }, fs)
    | .inl (_, none) => none
    | .inl (i, some prevcn) => some (extendLast fs { dep with lastfc := setcache (i - 1) prevcn })
  else some (extendLast fs dep)

/-! ## The four views agree -/

/-- The clusters whose bit in the map is clear. -/
def Fs.clear (fs : Fs) : Finset Nat := (Finset.range (8 * (fs.maxcluster / 8 + 1))).filter fun cn => fs.bit cn = false

structure Inv (fs : Fs) : Prop where
  bits : ∀ cn, cn ∈ fs.clear ↔ fs.Valid cn ∧ fs.fat cn = 0
  count : fs.freeclustercount = fs.clear.card
  hint : ∀ cn ∈ fs.clear, fs.lookhere ≤ cn

section Bits
variable {fs fs' : Fs} {cn c v : Nat}

theorem bit_usemapAlloc (fs : Fs) (cn c : Nat) : (usemapAlloc fs cn).bit c = (fs.bit c || decide (c = cn)) := by
  have hlt := Nat.mod_lt cn (show 0 < 8 by omega)
  by_cases hq : c / 8 = cn / 8
  · simp only [Fs.bit, usemapAlloc, hq, Function.update_self, BitVec.getLsbD_or, BitVec.getLsbD_twoPow]
    congr 1
    rw [decide_eq_true hlt, Bool.true_and]
    exact decide_eq_decide.2 ⟨fun _ => by omega, fun h => by rw [h]⟩
  · have hne : c ≠ cn := fun h => hq (by rw [h])
    simp only [Fs.bit, usemapAlloc, Function.update_of_ne hq, hne, decide_false, Bool.or_false]

theorem bit_usemapFree (fs : Fs) (cn c : Nat) : (usemapFree fs cn).bit c = (fs.bit c && !decide (c = cn)) := by
  have hlt := Nat.mod_lt c (show 0 < 8 by omega)
  have hlt' := Nat.mod_lt cn (show 0 < 8 by omega)
  by_cases hq : c / 8 = cn / 8
  · simp only [Fs.bit, usemapFree, hq, Function.update_self, BitVec.getLsbD_and, BitVec.getLsbD_not, BitVec.getLsbD_twoPow]
    congr 1
    rw [decide_eq_true hlt, decide_eq_true hlt', Bool.true_and, Bool.true_and]
    exact congrArg _ (decide_eq_decide.2 ⟨fun _ => by omega, fun h => by rw [h]⟩)
  · have hne : c ≠ cn := fun h => hq (by rw [h])
    simp only [Fs.bit, usemapFree, Function.update_of_ne hq, hne, decide_false, Bool.not_false, Bool.and_true]

theorem clear_usemapAlloc (fs : Fs) (cn : Nat) : (usemapAlloc fs cn).clear = fs.clear.erase cn := by
  ext c
  simp only [Fs.clear, Finset.mem_filter, Finset.mem_erase, bit_usemapAlloc, Bool.or_eq_false_iff, decide_eq_false_iff_not]
  rw [show (usemapAlloc fs cn).maxcluster = fs.maxcluster from rfl]
  tauto

theorem clear_usemapFree (hcn : cn ≤ fs.maxcluster) : (usemapFree fs cn).clear = insert cn fs.clear := by
  ext c
  simp only [Fs.clear, Finset.mem_filter, Finset.mem_insert, Finset.mem_range, bit_usemapFree, Bool.and_eq_false_iff,
    Bool.not_eq_false', decide_eq_true_eq]
  rw [show (usemapFree fs cn).maxcluster = fs.maxcluster from rfl]
  constructor
  · rintro ⟨hlt, hb | hc⟩
    · exact .inr ⟨hlt, hb⟩
    · exact .inl hc
  · rintro (rfl | ⟨hlt, hb⟩)
    · exact ⟨by omega, .inr rfl⟩
    · exact ⟨hlt, .inl hb⟩

/-- A free cluster is taken, all below it being in use. -/
theorem Inv.alloc (h : Inv fs) (hcn : cn ∈ fs.clear) (hleast : ∀ c ∈ fs.clear, cn ≤ c) (hv : v ≠ 0) :
    Inv (usemapAlloc { fs with fat := Function.update fs.fat cn v } cn) := by
  have hclear : (usemapAlloc { fs with fat := Function.update fs.fat cn v } cn).clear = fs.clear.erase cn :=
    clear_usemapAlloc _ _
  refine ⟨fun c => ?_, ?_, fun c hc => ?_⟩
  · rw [hclear, Finset.mem_erase, h.bits]
    simp only [usemapAlloc, Function.update_apply]
    by_cases hc : c = cn
    · simp [hc, hv]
    · simp only [hc, if_false, ne_eq, not_false_eq_true, true_and]
      rfl
  · rw [hclear, Finset.card_erase_of_mem hcn]
    have hpos := Finset.card_pos.2 ⟨cn, hcn⟩
    simp only [usemapAlloc, h.count]
    omega
  · rw [hclear, Finset.mem_erase] at hc
    have := hleast c hc.2
    simp only [usemapAlloc]
    omega

/-- A cluster in use is freed. -/
theorem Inv.free (h : Inv fs) (hcn : fs.Valid cn) (hused : fs.fat cn ≠ 0) :
    Inv (usemapFree { fs with fat := Function.update fs.fat cn 0 } cn) := by
  have hclear : (usemapFree { fs with fat := Function.update fs.fat cn 0 } cn).clear = insert cn fs.clear :=
    clear_usemapFree hcn.2
  have hnot : cn ∉ fs.clear := fun hmem => hused ((h.bits cn).1 hmem).2
  refine ⟨fun c => ?_, ?_, fun c hc => ?_⟩
  · rw [hclear, Finset.mem_insert, h.bits]
    simp only [usemapFree, Function.update_apply]
    by_cases hc : c = cn
    · simp only [hc, if_true, true_or, and_true, true_iff]
      exact hcn
    · simp only [hc, if_false, false_or]
      rfl
  · rw [hclear, Finset.card_insert_of_notMem hnot]
    simp only [usemapFree, h.count]
    push_cast
    rfl
  · rw [hclear, Finset.mem_insert] at hc
    simp only [usemapFree]
    rcases hc with rfl | hc
    · split <;> omega
    · have := h.hint c hc
      split <;> omega

theorem Inv.link (h : Inv fs) (hused : fs.fat cn ≠ 0) (hv : v ≠ 0) : Inv { fs with fat := Function.update fs.fat cn v } := by
  refine ⟨fun c => ?_, h.count, h.hint⟩
  simp only [Function.update_apply]
  by_cases hc : c = cn
  · simp only [hc, if_true, hv, and_false, iff_false]
    exact fun hmem => hused ((h.bits cn).1 hmem).2
  · simp only [hc, if_false]
    exact h.bits c

end Bits

/-! ## The search -/

section Search
variable {fs : Fs} {cn : Nat}

theorem clearBit_some {map : BitVec 8} {bit : Nat} (h : clearBit map = some bit) :
    bit < 8 ∧ map.getLsbD bit = false ∧ ∀ b < bit, map.getLsbD b = true := by
  obtain ⟨hbit, hmem, hbefore⟩ := List.find?_range_eq_some.1 h
  exact ⟨List.mem_range.1 hmem, by simpa using hbit, fun b hb => by simpa using hbefore b hb⟩

theorem clearBit_none {map : BitVec 8} (h : clearBit map = none) : ∀ b < 8, map.getLsbD b = true := by
  intro b hb
  have := List.find?_eq_none.1 h b (List.mem_range.2 hb)
  simpa using this

/-- The first of a range of numbers for which there is a result. -/
theorem findSome?_range' {f : Nat → Option Nat} (s n : Nat) :
    (∃ i a, s ≤ i ∧ i < s + n ∧ f i = some a ∧ (List.range' s n).findSome? f = some a ∧ ∀ j, s ≤ j → j < i → f j = none) ∨
      ((List.range' s n).findSome? f = none ∧ ∀ j, s ≤ j → j < s + n → f j = none) := by
  induction n generalizing s with
  | zero => exact .inr ⟨rfl, fun j _ _ => by omega⟩
  | succ n ih =>
    rw [List.range'_succ]
    cases hf : f s with
    | some a =>
      exact .inl ⟨s, a, Nat.le_refl s, by omega, hf, by rw [List.findSome?_cons, hf], fun j _ _ => by omega⟩
    | none =>
      rw [List.findSome?_cons, hf]
      have hstep : ∀ j, s ≤ j → s + 1 ≤ j ∨ f j = none := by
        intro j hj
        rcases Nat.eq_or_lt_of_le hj with rfl | hj
        · exact .inr hf
        · exact .inl hj
      rcases ih (s + 1) with ⟨i, a, hi, hlt, ha, he, hbefore⟩ | ⟨he, hall⟩
      · exact .inl ⟨i, a, by omega, by omega, ha, he, fun j hj hji => (hstep j hj).elim (fun h => hbefore j h hji) id⟩
      · exact .inr ⟨he, fun j hj hjn => (hstep j hj).elim (fun h => hall j h (by omega)) id⟩

/-- The search finds the lowest free cluster. -/
theorem search_spec (h : Inv fs) :
    (∃ cn, search fs = some cn ∧ cn ∈ fs.clear ∧ ∀ c ∈ fs.clear, cn ≤ c) ∨ (search fs = none ∧ fs.clear = ∅) := by
  have hmem : ∀ c, c ∈ fs.clear ↔ c < 8 * (fs.maxcluster / 8 + 1) ∧ fs.bit c = false := by
    intro c
    simp [Fs.clear]
  -- a byte in which nothing is found has no clear bit
  have hnone : ∀ idx, (if fs.inusemap idx ≠ 0xff then (clearBit (fs.inusemap idx)).map fun bit => idx * 8 + bit else none) = none →
      ∀ c, c / 8 = idx → fs.bit c = true := by
    intro idx hidx c hc
    have hlt := Nat.mod_lt c (show 0 < 8 by omega)
    rw [Fs.bit, hc]
    split_ifs at hidx with hff
    · exact clearBit_none (Option.map_eq_none_iff.1 hidx) _ hlt
    · rw [not_not.1 hff]
      generalize c % 8 = b at hlt ⊢
      revert b
      decide
  rcases findSome?_range' (f := fun idx =>
      if fs.inusemap idx ≠ 0xff then (clearBit (fs.inusemap idx)).map fun bit => idx * 8 + bit else none)
      (fs.lookhere / 8) (fs.maxcluster / 8 + 1 - fs.lookhere / 8) with ⟨idx, cn, hlo, hhi, hat, he, hbefore⟩ | ⟨he, hall⟩
  · refine .inl ⟨cn, he, ?_, fun c hc => ?_⟩
    all_goals
      split_ifs at hat
      obtain ⟨bit, hbit, rfl⟩ := Option.map_eq_some_iff.1 hat
      obtain ⟨hlt, hzero, hlow⟩ := clearBit_some hbit
    · refine (hmem _).2 ⟨by omega, ?_⟩
      rw [Fs.bit, show (idx * 8 + bit) / 8 = idx by omega, show (idx * 8 + bit) % 8 = bit by omega]
      exact hzero
    · have hhint := h.hint c hc
      have hbit := ((hmem c).1 hc).2
      by_contra hcn
      rcases Nat.lt_or_ge (c / 8) idx with hq | hq
      · rw [hnone _ (hbefore (c / 8) (by omega) hq) c rfl] at hbit
        cases hbit
      · have hq : c / 8 = idx := by omega
        rw [Fs.bit, hq, hlow (c % 8) (by omega)] at hbit
        cases hbit
  · refine .inr ⟨he, Finset.eq_empty_iff_forall_notMem.2 fun c hc => ?_⟩
    have hhint := h.hint c hc
    obtain ⟨hlt, hbit⟩ := (hmem c).1 hc
    rw [hnone _ (hall (c / 8) (by omega) (by omega)) c rfl] at hbit
    cases hbit

theorem clusteralloc_spec (h : Inv fs) (v : Nat) :
    (∃ cn, clusteralloc fs v = .ok (cn, usemapAlloc { fs with fat := Function.update fs.fat cn v } cn) ∧ cn ∈ fs.clear ∧
        ∀ c ∈ fs.clear, cn ≤ c) ∨
      (clusteralloc fs v = .error .ENOSPC ∧ fs.clear = ∅) := by
  rcases search_spec h with ⟨cn, he, hcn, hleast⟩ | ⟨he, hempty⟩
  · refine .inl ⟨cn, ?_, hcn, hleast⟩
    simp only [clusteralloc, he, fatSet, if_pos ((h.bits cn).1 hcn).1]
    rfl
  · exact .inr ⟨by simp only [clusteralloc, he], hempty⟩

end Search

/-! ## Filling the map -/

/-- The loop of `fillinusemap` over the first `n` clusters. -/
def fillLoop (fs : Fs) (n : Nat) : Fs :=
  (List.range' CLUST_FIRST n).foldl (fun fs cn => if fs.fat cn = 0 then usemapFree fs cn else fs)
    { fs with inusemap := fun _ => 0xff, freeclustercount := 0, lookhere := fs.maxcluster + 1 }

theorem fillLoop_succ (fs : Fs) (n : Nat) :
    fillLoop fs (n + 1) =
      if (fillLoop fs n).fat (CLUST_FIRST + n) = 0 then usemapFree (fillLoop fs n) (CLUST_FIRST + n) else fillLoop fs n := by
  rw [fillLoop, List.range'_concat, List.foldl_append, Nat.one_mul]
  rfl

theorem fillLoop_spec (fs : Fs) (n : Nat) (hn : n ≤ fs.maxcluster + 1 - CLUST_FIRST) :
    (fillLoop fs n).fat = fs.fat ∧ (fillLoop fs n).maxcluster = fs.maxcluster ∧
      (∀ c, c ∈ (fillLoop fs n).clear ↔ CLUST_FIRST ≤ c ∧ c < CLUST_FIRST + n ∧ fs.fat c = 0) ∧
      (fillLoop fs n).freeclustercount = (fillLoop fs n).clear.card ∧
      ∀ c ∈ (fillLoop fs n).clear, (fillLoop fs n).lookhere ≤ c := by
  induction n with
  | zero =>
    have hclear : (fillLoop fs 0).clear = ∅ := by
      refine Finset.eq_empty_iff_forall_notMem.2 fun c hc => ?_
      have hbit : (fillLoop fs 0).bit c = true := by
        have hlt := Nat.mod_lt c (show 0 < 8 by omega)
        simp only [Fs.bit, fillLoop, List.range'_zero, List.foldl_nil]
        generalize c % 8 = b at hlt ⊢
        revert b
        decide
      simp [Fs.clear, hbit] at hc
    refine ⟨rfl, rfl, fun c => ?_, ?_, fun c hc => ?_⟩
    · rw [hclear]
      simp only [Finset.notMem_empty, false_iff]
      omega
    · rw [hclear]
      rfl
    · rw [hclear] at hc
      exact absurd hc (Finset.notMem_empty c)
  | succ n ih =>
    obtain ⟨hfat, hmax, hclear, hcount, hhint⟩ := ih (by omega)
    rw [fillLoop_succ, hfat]
    split_ifs with hzero
    · have hins : (usemapFree (fillLoop fs n) (CLUST_FIRST + n)).clear = insert (CLUST_FIRST + n) (fillLoop fs n).clear :=
        clear_usemapFree (by omega)
      have hnot : CLUST_FIRST + n ∉ (fillLoop fs n).clear := fun hmem => by
        have := ((hclear _).1 hmem).2.1
        omega
      refine ⟨hfat, hmax, fun c => ?_, ?_, fun c hc => ?_⟩
      · rw [hins, Finset.mem_insert, hclear]
        constructor
        · rintro (rfl | ⟨hlo, hlt, hz⟩)
          · exact ⟨by omega, by omega, hzero⟩
          · exact ⟨hlo, by omega, hz⟩
        · rintro ⟨hlo, hlt, hz⟩
          by_cases hc : c = CLUST_FIRST + n
          · exact .inl hc
          · exact .inr ⟨hlo, by omega, hz⟩
      · rw [hins, Finset.card_insert_of_notMem hnot]
        simp only [usemapFree, hcount]
        push_cast
        rfl
      · rw [hins, Finset.mem_insert] at hc
        simp only [usemapFree]
        rcases hc with rfl | hc
        · split <;> omega
        · have := hhint c hc
          split <;> omega
    · refine ⟨hfat, hmax, fun c => ?_, hcount, hhint⟩
      rw [hclear]
      constructor
      · rintro ⟨hlo, hlt, hz⟩
        exact ⟨hlo, by omega, hz⟩
      · rintro ⟨hlo, hlt, hz⟩
        refine ⟨hlo, ?_, hz⟩
        by_contra hge
        exact hzero (by rwa [show c = CLUST_FIRST + n by omega] at hz)

theorem fillinusemap_inv (fs : Fs) : Inv (fillinusemap fs) := by
  obtain ⟨hfat, hm, hclear, hcount, hhint⟩ := fillLoop_spec fs (fs.maxcluster + 1 - CLUST_FIRST) (Nat.le_refl _)
  refine ⟨fun c => (hclear c).trans ?_, hcount, hhint⟩
  have hfat' : (fillinusemap fs).fat = fs.fat := hfat
  have hm' : (fillinusemap fs).maxcluster = fs.maxcluster := hm
  rw [Fs.Valid, hfat', hm', and_assoc]
  unfold CLUST_FIRST
  constructor
  · rintro ⟨hlo, hlt, hz⟩
    exact ⟨hlo, by omega, hz⟩
  · rintro ⟨hlo, hlt, hz⟩
    exact ⟨hlo, by omega, hz⟩

/-! ## Chains -/

/-- Each cluster has the next one in its entry, the last one `e`. -/
def Links (fat : Nat → Nat) (e : Nat) : List Nat → Prop
  | [] => True
  | [c] => fat c = e
  | c :: d :: cs => fat c = d ∧ Links fat e (d :: cs)

/-- The clusters of a file, from `start` to the mark `e`. -/
structure Chain (fs : Fs) (start : Nat) (cs : List Nat) (e : Nat) : Prop where
  head : cs.head? = some start
  valid : ∀ c ∈ cs, fs.Valid c
  nodup : cs.Nodup
  links : Links fs.fat e cs
  eof : PCFSEOF e = true

section Chains
variable {fs : Fs} {e start : Nat} {cs : List Nat}

theorem Links.tail (h : Links fat e (c :: cs)) : Links fat e cs := by
  cases cs with
  | nil => trivial
  | cons d cs => exact h.2

theorem Links.entry (h : Links fat e (c :: cs)) : fat c = cs.head?.getD e := by
  cases cs with
  | nil => exact h
  | cons d cs => exact h.1

theorem links_update {v : Nat} (hc : c ∉ cs) (h : Links fat e cs) : Links (Function.update fat c v) e cs := by
  induction cs with
  | nil => trivial
  | cons d cs ih =>
    have hd : d ≠ c := fun he => hc (he ▸ List.mem_cons_self)
    cases cs with
    | nil =>
      rw [Links, Function.update_of_ne hd]
      exact h
    | cons d' cs =>
      rw [Links, Function.update_of_ne hd]
      exact ⟨h.1, ih (fun hmem => hc (List.mem_cons_of_mem _ hmem)) h.2⟩

theorem eof_ne_zero (he : PCFSEOF e = true) : e ≠ 0 := by
  rintro rfl
  revert he
  decide

theorem links_ne_zero (hv : ∀ c ∈ cs, CLUST_FIRST ≤ c) (h : Links fat e cs) (he : e ≠ 0) : ∀ c ∈ cs, fat c ≠ 0 := by
  induction cs with
  | nil => intro c hc; cases hc
  | cons d cs ih =>
    intro c hc
    rcases List.mem_cons.1 hc with rfl | hc
    · rw [h.entry]
      cases cs with
      | nil => exact he
      | cons d' cs =>
        have := hv d' (by simp)
        unfold CLUST_FIRST at this
        simp only [List.head?_cons, Option.getD_some]
        omega
    · exact ih (fun c hc => hv c (List.mem_cons_of_mem _ hc)) h.tail c hc

theorem Chain.used (h : Chain fs start cs e) : ∀ c ∈ cs, fs.fat c ≠ 0 :=
  links_ne_zero (fun c hc => (h.valid c hc).1) h.links (eof_ne_zero h.eof)

theorem clusterfree_eq (hcn : fs.Valid cn) :
    clusterfree fs cn = .ok (fs.fat cn, usemapFree { fs with fat := Function.update fs.fat cn 0 } cn) := by
  simp only [clusterfree, fatSet, if_pos hcn]
  rfl

theorem freeclusterchain_step (hcn : fs.Valid cn) : freeclusterchain (n + 1) fs cn =
    freeclusterchain n (usemapFree { fs with fat := Function.update fs.fat cn 0 } cn) (fs.fat cn) := by
  rw [freeclusterchain.eq_def]
  simp only [if_pos hcn, clusterfree_eq hcn]

theorem freeclusterchain_end (hcn : ¬fs.Valid cn) : freeclusterchain n fs cn = some fs := by
  rw [freeclusterchain.eq_def]
  simp only [if_neg hcn]

/-- A chain whose mark is no cluster is freed as a whole. -/
theorem freeclusterchain_spec (h : Inv fs) (hv : ∀ c ∈ cs, fs.Valid c) (hd : cs.Nodup) (hl : Links fs.fat e cs)
    (he0 : e ≠ 0) (he : ¬fs.Valid e) (hn : cs.length ≤ n) :
    ∃ fs', freeclusterchain n fs (cs.head?.getD e) = some fs' ∧ Inv fs' ∧ fs'.maxcluster = fs.maxcluster ∧
      fs'.fat = fun c => if c ∈ cs then 0 else fs.fat c := by
  induction cs generalizing fs n with
  | nil =>
    refine ⟨fs, ?_, h, rfl, by simp⟩
    exact freeclusterchain_end he
  | cons c cs ih =>
    obtain ⟨hc, hd⟩ := List.nodup_cons.1 hd
    have hvc := hv c List.mem_cons_self
    have hused := links_ne_zero (fun c hc => (hv c hc).1) hl he0 c List.mem_cons_self
    obtain ⟨n, rfl⟩ : ∃ m, n = m + 1 := ⟨n - 1, by simp at hn; omega⟩
    obtain ⟨fs', hrun, hinv, hmax, hfat⟩ := ih (n := n) (h.free hvc hused) (fun d hd => hv d (List.mem_cons_of_mem _ hd)) hd (links_update hc hl.tail) he
      (by simpa using hn)
    refine ⟨fs', ?_, hinv, hmax, ?_⟩
    · rw [List.head?_cons, Option.getD_some, freeclusterchain_step hvc, hl.entry]
      exact hrun
    · rw [hfat]
      funext d
      simp only [usemapFree, Function.update_apply, List.mem_cons]
      by_cases hdc : d = c
      · simp [hdc]
      · simp [hdc]

/-- The clusters from `cn` on, as long as the entries are clusters. -/
def Fs.chain (fs : Fs) : Nat → Nat → List Nat
  | 0, _ => []
  | n + 1, cn => if fs.Valid cn then cn :: fs.chain n (fs.fat cn) else []

theorem chain_eq (hv : ∀ c ∈ cs, fs.Valid c) (hl : Links fs.fat e cs) (he : ¬fs.Valid e) (hn : cs.length ≤ n) :
    fs.chain n (cs.head?.getD e) = cs := by
  induction cs generalizing n with
  | nil =>
    cases n with
    | zero => rfl
    | succ n => exact if_neg he
  | cons c cs ih =>
    obtain ⟨n, rfl⟩ : ∃ m, n = m + 1 := ⟨n - 1, by simp at hn; omega⟩
    rw [Fs.chain, List.head?_cons, Option.getD_some, if_pos (hv c List.mem_cons_self), hl.entry,
      ih (fun d hd => hv d (List.mem_cons_of_mem _ hd)) hl.tail (by simpa using hn)]

theorem Chain.length_le (h : Chain fs start cs e) : cs.length ≤ fs.maxcluster + 1 := by
  have hsub : cs.toFinset ⊆ Finset.range (fs.maxcluster + 1) := by
    intro c hc
    have := (h.valid c (List.mem_toFinset.1 hc)).2
    exact Finset.mem_range.2 (by omega)
  have := Finset.card_le_card hsub
  rwa [List.toFinset_card_of_nodup h.nodup, Finset.card_range] at this

theorem not_eof (h : c < 0xfff8) : PCFSEOF c = false := by
  have := Nat.and_le_left (n := c) (m := 0xfff8)
  simp only [PCFSEOF, beq_eq_false_iff_ne]
  omega

/-- Where the file ends, `prevcn` is one of its clusters. -/
theorem pcbmapLoop_spec {S : List Nat} (heof : PCFSEOF e = true) (n i : Nat) (prevcn : Option Nat)
    (hl : Links fat e cs) (hc : ∀ c ∈ cs, PCFSEOF c = false) (hsub : cs ⊆ S)
    (hprev : cs = [] → ∃ p ∈ S, prevcn = some p) :
    (∃ i', ∃ p ∈ S, pcbmapLoop fat n i (cs.head?.getD e) prevcn = .inl (i', some p)) ∨
      ∃ r, pcbmapLoop fat n i (cs.head?.getD e) prevcn = .inr r := by
  induction n generalizing cs i prevcn with
  | zero =>
    cases cs with
    | nil =>
      obtain ⟨p, hp, rfl⟩ := hprev rfl
      exact .inl ⟨i, p, hp, by simp [pcbmapLoop, heof]⟩
    | cons c cs => exact .inr ⟨(i, c), by simp [pcbmapLoop, hc c List.mem_cons_self]⟩
  | succ n ih =>
    cases cs with
    | nil =>
      obtain ⟨p, hp, rfl⟩ := hprev rfl
      exact .inl ⟨i, p, hp, by simp [pcbmapLoop, heof]⟩
    | cons c cs =>
      have hnext := ih (i + 1) (some c) hl.tail (fun d hd => hc d (List.mem_cons_of_mem _ hd))
        (fun d hd => hsub (List.mem_cons_of_mem _ hd)) fun _ => ⟨c, hsub List.mem_cons_self, rfl⟩
      simpa only [List.head?_cons, Option.getD_some, pcbmapLoop, hc c List.mem_cons_self, Bool.false_eq_true, if_false,
        hl.entry] using hnext

theorem Links.drop (h : Links fat e cs) (k : Nat) : Links fat e (cs.drop k) := by
  induction k generalizing cs with
  | zero => exact h
  | succ k ih =>
    cases cs with
    | nil => trivial
    | cons c cs => exact ih h.tail

end Chains

/-! ## Extending a file -/

/-- The caches of the denode name clusters of its chain. -/
structure Denode.Ok (dep : Denode) (fs : Fs) (cs : List Nat) (e : Nat) : Prop where
  chain : Chain fs dep.startCluster cs e
  lastmap : dep.lastmap.frcn = FCE_EMPTY ∨ cs[dep.lastmap.frcn]? = some dep.lastmap.fsrcn
  lastfc : dep.lastfc.frcn = FCE_EMPTY ∨ dep.lastfc.fsrcn ∈ cs

section Extend
variable {fs : Fs} {dep : Denode} {cs : List Nat} {e : Nat}

/-- `pcbmap` from what is cached finds the end of the file in its chain. -/
theorem pcbmap_spec (h : dep.Ok fs cs e) (hempty : dep.lastfc.frcn = FCE_EMPTY) (hlt : ∀ c ∈ cs, c < 0xfff8) (findcn : Nat) :
    (∃ i, ∃ p ∈ cs, pcbmap fs dep findcn = .inl (i, some p)) ∨ ∃ r, pcbmap fs dep findcn = .inr r := by
  -- the walk starts somewhere in the chain
  have hwalk : ∀ k n i, k < cs.length → (∃ i', ∃ p ∈ cs, pcbmapLoop fs.fat n i ((cs.drop k).head?.getD e) none = .inl (i', some p)) ∨
      ∃ r, pcbmapLoop fs.fat n i ((cs.drop k).head?.getD e) none = .inr r := by
    intro k n i hk
    refine pcbmapLoop_spec h.chain.eof n i none (h.chain.links.drop k) (fun c hc => not_eof (hlt c (List.mem_of_mem_drop hc)))
      (List.drop_subset k cs) fun hnil => ?_
    have := List.drop_eq_nil_iff.1 hnil
    omega
  unfold pcbmap
  rw [if_neg fun hc => hc.1 hempty]
  by_cases hmap : dep.lastmap.frcn ≠ FCE_EMPTY ∧ dep.lastmap.frcn ≤ findcn
  · rw [if_pos hmap]
    have hat := h.lastmap.resolve_left hmap.1
    obtain ⟨hk, -⟩ := List.getElem?_eq_some_iff.1 hat
    have hhead : (cs.drop dep.lastmap.frcn).head?.getD e = dep.lastmap.fsrcn := by
      rw [List.head?_drop, hat, Option.getD_some]
    rw [← hhead]
    exact hwalk _ _ _ hk
  · rw [if_neg hmap]
    have hhead : (cs.drop 0).head?.getD e = dep.startCluster := by
      rw [List.drop_zero, h.chain.head, Option.getD_some]
    rw [← hhead]
    refine hwalk 0 _ _ (List.length_pos_of_ne_nil fun hnil => ?_)
    have := h.chain.head
    rw [hnil] at this
    cases this

/-- The file system after a call that took the cluster `r`, if any. -/
structure Took (fs : Fs) (r : Option Nat) (fs' : Fs) : Prop where
  inv : Inv fs'
  max : fs'.maxcluster = fs.maxcluster
  kept : ∀ c, fs.fat c ≠ 0 → fs'.fat c ≠ 0
  taken : ∀ cn, r = some cn → fs.Valid cn ∧ fs'.fat cn ≠ 0

theorem Took.refl (h : Inv fs) : Took fs none fs := ⟨h, rfl, fun _ => id, fun _ hr => by cases hr⟩

theorem clusteralloc_took (h : Inv fs) {v : Nat} (hv : v ≠ 0) :
    (∃ cn fs', clusteralloc fs v = .ok (cn, fs') ∧ cn ∈ fs.clear ∧ Took fs (some cn) fs') ∨
      clusteralloc fs v = .error .ENOSPC := by
  rcases clusteralloc_spec h v with ⟨cn, he, hcn, hleast⟩ | ⟨he, -⟩
  · refine .inl ⟨cn, _, he, hcn, h.alloc hcn hleast hv, rfl, fun c hc => ?_, fun cn' hr => ?_⟩
    · simp only [usemapAlloc, Function.update_apply]
      split
      · exact hv
      · exact hc
    · obtain rfl := Option.some.inj hr
      refine ⟨((h.bits cn).1 hcn).1, ?_⟩
      simp only [usemapAlloc, Function.update_self]
      exact hv
  · exact .inr he

theorem extendLast_took (h : Inv fs) (hlast : dep.startCluster ≠ 0 → fs.Valid dep.lastfc.fsrcn ∧ fs.fat dep.lastfc.fsrcn ≠ 0) :
    Took fs (extendLast fs dep).1 (extendLast fs dep).2.2 := by
  unfold extendLast
  rcases clusteralloc_took h (v := CLUST_EOFE) (by decide) with ⟨cn, fs', he, hcn, ht⟩ | he
  · simp only [he]
    split_ifs with hstart
    · exact ht
    · obtain ⟨hvalid, hused⟩ := hlast hstart
      have hcn0 : cn ≠ 0 := by
        have := ((h.bits cn).1 hcn).1.1
        unfold CLUST_FIRST at this
        omega
      have hvalid' : fs'.Valid dep.lastfc.fsrcn := by
        rw [Fs.Valid, ht.max]
        exact hvalid
      simp only [fatSet, if_pos hvalid']
      refine ⟨ht.inv.link (ht.kept _ hused) hcn0, ht.max, fun c hc => ?_, fun cn' hr => ⟨(ht.taken cn' hr).1, ?_⟩⟩
      · simp only [Function.update_apply]
        split
        · exact hcn0
        · exact ht.kept c hc
      · simp only [Function.update_apply]
        split
        · exact hcn0
        · exact (ht.taken cn' hr).2
  · simp only [he]
    exact .refl h

theorem extendfile_took (h : Inv fs)
    (hdep : dep.vroot = true ∨ dep.startCluster = 0 ∨ ∃ cs e, dep.Ok fs cs e ∧ ∀ c ∈ cs, c < 0xfff8) :
    ∃ r, extendfile fs dep = some r ∧ Took fs r.1 r.2.2 := by
  unfold extendfile
  split_ifs with hroot hfind
  · exact ⟨_, rfl, .refl h⟩
  · obtain ⟨cs, e, hok, hlt⟩ := (hdep.resolve_left hroot).resolve_left hfind.2
    rcases pcbmap_spec hok hfind.1 hlt 0xffff with ⟨i, p, hp, he⟩ | ⟨⟨i, cn⟩, he⟩
    · rw [he]
      refine ⟨_, rfl, extendLast_took h fun _ => ?_⟩
      have hfs : (setcache (i - 1) p).fsrcn = p := Nat.mod_eq_of_lt (by have := hlt p hp; omega)
      simp only [hfs]
      exact ⟨hok.chain.valid p hp, hok.chain.used p hp⟩
    · rw [he]
      exact ⟨_, rfl, .refl h⟩
  · refine ⟨_, rfl, extendLast_took h fun hstart => ?_⟩
    obtain ⟨cs, e, hok, -⟩ := (hdep.resolve_left hroot).resolve_left hstart
    have hlast := hok.lastfc.resolve_left fun hempty => hfind ⟨hempty, hstart⟩
    exact ⟨hok.chain.valid _ hlast, hok.chain.used _ hlast⟩

end Extend

/-! ## Runs -/

/-- The file system, and the clusters handed out and not freed since. -/
structure Sys where
  fs : Fs
  out : Finset Nat

inductive Op
  | alloc (fillwith : Nat)
  | free (cn : Nat)
  | freeChain (start : Nat)
  | extend (dep : Denode)
  deriving DecidableEq, Repr

/-- A call; there is no state once one does not return. -/
def step : Option Sys → Op → Option Sys
  | none, _ => none
  | some s, .alloc fillwith =>
    match clusteralloc s.fs fillwith with
    | .ok (cn, fs) => some ⟨fs, insert cn s.out⟩
    | .error _ => some s
  | some s, .free cn =>
    match clusterfree s.fs cn with
    | .ok (_, fs) => some ⟨fs, s.out.erase cn⟩
    | .error _ => some s
  | some s, .freeChain start =>
    (freeclusterchain (s.fs.maxcluster + 1) s.fs start).map fun fs =>
      ⟨fs, s.out \ (s.fs.chain (s.fs.maxcluster + 1) start).toFinset⟩
  | some s, .extend dep =>
    (extendfile s.fs dep).map fun (r, _, fs) => ⟨fs, s.out ∪ r.toFinset⟩

/-- What the callers keep to: a value that is not zero is filled in, clusters and chains
that are freed are in use, and a file that is extended is the root, empty, or has a
chain. -/
def Legal (st : Option Sys) (op : Op) : Prop :=
  ∀ s, st = some s → match op with
    | .alloc fillwith => fillwith ≠ 0
    | .free cn => s.fs.Valid cn ∧ s.fs.fat cn ≠ 0
    | .freeChain start => ∃ cs e, Chain s.fs start cs e
    | .extend dep => dep.vroot = true ∨ dep.startCluster = 0 ∨ ∃ cs e, dep.Ok s.fs cs e

/-- The mark at the end of a chain that is freed is no cluster, and no cluster of a file
that is extended is such a mark. -/
def Fits (st : Option Sys) (op : Op) : Prop :=
  ∀ s, st = some s → match op with
    | .alloc _ => True
    | .free _ => True
    | .freeChain start => ∀ cs e, Chain s.fs start cs e → ¬s.fs.Valid e
    | .extend dep => dep.vroot = true ∨ dep.startCluster = 0 ∨ ∀ cs e, Chain s.fs dep.startCluster cs e → ∀ c ∈ cs, c < 0xfff8

structure Intact (s : Sys) : Prop where
  bits : ∀ cn, s.fs.Valid cn → (s.fs.bit cn = false ↔ s.fs.fat cn = 0)
  count : s.fs.freeclustercount = s.fs.clear.card
  hint : ∀ cn, s.fs.Valid cn → cn < s.fs.lookhere → s.fs.bit cn = true
  lowest : ∀ fillwith cn fs', clusteralloc s.fs fillwith = .ok (cn, fs') →
    IsLeast {c | s.fs.Valid c ∧ s.fs.fat c = 0} cn ∧ cn ∉ s.out
  full : ∀ fillwith, clusteralloc s.fs fillwith = .error .ENOSPC ↔ ∀ cn, s.fs.Valid cn → s.fs.fat cn ≠ 0

/-- What is kept: the views agree, and what was handed out is in use. -/
structure Kept (s : Sys) : Prop where
  inv : Inv s.fs
  out : ∀ cn ∈ s.out, s.fs.fat cn ≠ 0

theorem mem_clear {fs : Fs} (hcn : fs.Valid cn) : cn ∈ fs.clear ↔ fs.bit cn = false := by
  have := hcn.2
  simp only [Fs.clear, Finset.mem_filter, Finset.mem_range, and_iff_right_iff_imp]
  omega

theorem Kept.intact (h : Kept s) : Intact s where
  bits cn hcn := by
    rw [← mem_clear hcn, h.inv.bits, and_iff_right hcn]
  count := h.inv.count
  hint cn hcn hlt := by
    by_contra hbit
    have := h.inv.hint cn ((mem_clear hcn).2 (by simpa using hbit))
    omega
  lowest fillwith cn fs' he := by
    rcases clusteralloc_spec h.inv fillwith with ⟨cn', he', hcn, hleast⟩ | ⟨he', -⟩
    · rw [he, Except.ok.injEq, Prod.mk.injEq] at he'
      obtain ⟨rfl, -⟩ := he'
      refine ⟨⟨(h.inv.bits cn).1 hcn, fun c hc => hleast c ((h.inv.bits c).2 hc)⟩, fun hout => ?_⟩
      exact h.out cn hout ((h.inv.bits cn).1 hcn).2
    · rw [he] at he'
      cases he'
  full fillwith := by
    rcases clusteralloc_spec h.inv fillwith with ⟨cn, he, hcn, -⟩ | ⟨he, hempty⟩
    · rw [he]
      simp only [reduceCtorEq, false_iff]
      intro hall
      exact absurd ((h.inv.bits cn).1 hcn).2 (hall cn ((h.inv.bits cn).1 hcn).1)
    · refine ⟨fun _ cn hcn hz => ?_, fun _ => he⟩
      have := (h.inv.bits cn).2 ⟨hcn, hz⟩
      rw [hempty] at this
      exact absurd this (Finset.notMem_empty cn)

theorem step_kept (h : Kept s) (op : Op) (hl : Legal (some s) op) (hf : Fits (some s) op) :
    ∃ s', step (some s) op = some s' ∧ Kept s' := by
  cases op with
  | alloc fillwith =>
    rcases clusteralloc_took h.inv (hl s rfl) with ⟨cn, fs', he, -, ht⟩ | he
    · refine ⟨⟨fs', insert cn s.out⟩, by simp only [step, he], ht.inv, fun c hc => ?_⟩
      rcases Finset.mem_insert.1 hc with rfl | hc
      · exact (ht.taken c rfl).2
      · exact ht.kept c (h.out c hc)
    · exact ⟨s, by simp only [step, he], h⟩
  | free cn =>
    obtain ⟨hvalid, hused⟩ := hl s rfl
    refine ⟨⟨_, s.out.erase cn⟩, by simp only [step, clusterfree_eq hvalid]; rfl, h.inv.free hvalid hused, fun c hc => ?_⟩
    obtain ⟨hne, hc⟩ := Finset.mem_erase.1 hc
    simp only [Function.update_of_ne hne]
    exact h.out c hc
  | freeChain start =>
    obtain ⟨cs, e, hchain⟩ := hl s rfl
    obtain ⟨fs', hrun, hinv, -, hfat⟩ := freeclusterchain_spec h.inv hchain.valid hchain.nodup hchain.links
      (eof_ne_zero hchain.eof) (hf s rfl cs e hchain) hchain.length_le
    have hcs := chain_eq hchain.valid hchain.links (hf s rfl cs e hchain) hchain.length_le
    rw [hchain.head, Option.getD_some] at hrun hcs
    refine ⟨⟨fs', s.out \ cs.toFinset⟩, by simp only [step, hrun, hcs, Option.map_some], hinv, fun c hc => ?_⟩
    obtain ⟨hout, hnot⟩ := Finset.mem_sdiff.1 hc
    simp only [hfat, if_neg fun hmem => hnot (List.mem_toFinset.2 hmem)]
    exact h.out c hout
  | extend dep =>
    have hdep : dep.vroot = true ∨ dep.startCluster = 0 ∨ ∃ cs e, dep.Ok s.fs cs e ∧ ∀ c ∈ cs, c < 0xfff8 := by
      rcases hl s rfl with hroot | hstart | ⟨cs, e, hok⟩
      · exact .inl hroot
      · exact .inr (.inl hstart)
      · rcases hf s rfl with hroot | hstart | hlt
        · exact .inl hroot
        · exact .inr (.inl hstart)
        · exact .inr (.inr ⟨cs, e, hok, hlt cs e hok.chain⟩)
    obtain ⟨r, he, ht⟩ := extendfile_took h.inv hdep
    refine ⟨⟨r.2.2, s.out ∪ r.1.toFinset⟩, by simp only [step, he, Option.map_some], ht.inv, fun c hc => ?_⟩
    rcases Finset.mem_union.1 hc with hc | hc
    · exact ht.kept c (h.out c hc)
    · exact (ht.taken c (by simpa using hc)).2

/-- A file system that has just been mounted. -/
def mounted (fs : Fs) : Sys := ⟨fillinusemap fs, ∅⟩

theorem mounted_inv (fs : Fs) : Inv (mounted fs).fs :=
  fillinusemap_inv fs

theorem eof_le {e : Nat} (he : PCFSEOF e = true) : 0xfff8 ≤ e := by
  by_contra hlt
  rw [not_eof (by omega)] at he
  cases he

theorem fits_of_small (h : s.fs.maxcluster < 0xfff8) (op : Op) : Fits (some s) op := by
  rintro s ⟨⟩
  cases op with
  | alloc => trivial
  | free => trivial
  | freeChain start =>
    intro cs e hchain hvalid
    have := eof_le hchain.eof
    have := hvalid.2
    omega
  | extend dep =>
    refine .inr (.inr fun cs e hchain c hc => ?_)
    have := (hchain.valid c hc).2
    omega

/-- A file system with the clusters 2 to 9, all free. -/
def smallFs : Fs := ⟨9, fun _ => 0, fun _ => 0, 0, 0⟩

/-- The file at cluster 2, with nothing cached. -/
def smallFile : Denode := ⟨false, 2, ⟨FCE_EMPTY, 0⟩, ⟨FCE_EMPTY, 0⟩⟩

/-- A file gets two clusters and is removed. -/
def smallOps : List Op := [.alloc CLUST_EOFE, .extend smallFile, .freeChain 2]

def small₁ : Sys := ⟨usemapAlloc { fillinusemap smallFs with fat := Function.update (fun _ => 0) 2 CLUST_EOFE } 2, {2}⟩

theorem step_small₁ : step (some (mounted smallFs)) (.alloc CLUST_EOFE) = some small₁ := rfl

/-- A file system with a cluster 65535, which is free, and a file of cluster 2. -/
def bigFs : Fs := ⟨65535, fun cn => if cn = 2 then CLUST_EOFE else 0, fun _ => 0, 0, 0⟩

theorem mounted_same (fs : Fs) : (mounted fs).fs.fat = fs.fat ∧ (mounted fs).fs.maxcluster = fs.maxcluster := by
  obtain ⟨hfat, hmax, -⟩ := fillLoop_spec fs (fs.maxcluster + 1 - CLUST_FIRST) (Nat.le_refl _)
  exact ⟨hfat, hmax⟩

theorem big_valid (hmax : s.fs.maxcluster = 65535) (c : Nat) : s.fs.Valid c ↔ CLUST_FIRST ≤ c ∧ c ≤ 65535 := by
  rw [Fs.Valid, hmax]

/-- The loop goes on to the cluster with the number of the mark, which is free already. -/
theorem not_intact_freeChain (hinv : Inv s.fs) (hmax : s.fs.maxcluster = 65535)
    (hfat : s.fs.fat = fun cn => if cn = 2 then CLUST_EOFE else 0) :
    ¬∀ st ∈ states step (some s) [.freeChain 2], ∃ s, st = some s ∧ Intact s := by
  intro hall
  have hvalid := big_valid hmax
  have h₂ : s.fs.fat 2 = CLUST_EOFE := by rw [hfat]; rfl
  have hused : s.fs.fat 2 ≠ 0 := by rw [h₂]; decide
  have hfree := hinv.free ((hvalid 2).2 (by decide)) hused
  -- the loop goes on to the cluster with the number of the mark
  obtain ⟨fs', hrun, hcount, hclear⟩ : ∃ fs', freeclusterchain (s.fs.maxcluster + 1) s.fs 2 = some fs' ∧
      fs'.freeclustercount = (insert 2 s.fs.clear).card + 1 ∧ fs'.clear = insert 65535 (insert 2 s.fs.clear) := by
    have hv₁ : (usemapFree { s.fs with fat := Function.update s.fs.fat 2 0 } 2).Valid CLUST_EOFE :=
      (hvalid CLUST_EOFE).2 (by decide)
    have hclear₁ : (usemapFree { s.fs with fat := Function.update s.fs.fat 2 0 } 2).clear = insert 2 s.fs.clear :=
      clear_usemapFree (by rw [hmax]; decide)
    have hnext : (usemapFree { s.fs with fat := Function.update s.fs.fat 2 0 } 2).fat CLUST_EOFE = 0 := by
      show Function.update s.fs.fat 2 0 CLUST_EOFE = 0
      rw [Function.update_of_ne (by decide), hfat]
      rfl
    refine ⟨usemapFree { usemapFree { s.fs with fat := Function.update s.fs.fat 2 0 } 2 with
      fat := Function.update (Function.update s.fs.fat 2 0) CLUST_EOFE 0 } CLUST_EOFE, ?_, ?_, ?_⟩
    · obtain ⟨n, hn⟩ : ∃ n, s.fs.maxcluster + 1 = n + 1 + 1 := ⟨65534, by omega⟩
      rw [hn, freeclusterchain_step ((hvalid 2).2 (by decide)), h₂, freeclusterchain_step hv₁, hnext]
      exact freeclusterchain_end fun hz => absurd hz.1 (by decide)
    · rw [← hclear₁, ← hfree.count]
      rfl
    · rw [← hclear₁]
      exact clear_usemapFree (show CLUST_EOFE ≤ s.fs.maxcluster by rw [hmax]; decide)
  obtain ⟨s', hs', hintact⟩ := hall _ (final_mem_states step (some s) [.freeChain 2])
  have hfinal : final step (some s) [.freeChain 2] =
      some ⟨fs', s.out \ (s.fs.chain (s.fs.maxcluster + 1) 2).toFinset⟩ := by
    show (freeclusterchain (s.fs.maxcluster + 1) s.fs 2).map _ = _
    rw [hrun]
    rfl
  obtain rfl := Option.some.inj (hfinal.symm.trans hs')
  have hin : 65535 ∈ insert 2 s.fs.clear := by
    refine Finset.mem_insert_of_mem ((hinv.bits 65535).2 ⟨(hvalid _).2 (by decide), ?_⟩)
    rw [hfat]
    rfl
  have := hintact.count
  simp only [hcount, hclear, Finset.insert_eq_of_mem hin] at this
  omega

end BsdKernel.Dosfs.Alloc
