import BsdKernel.Kern.Descrip
/-!
# Descriptor tables

What the calls do to one table. `TableOk` is the invariant of the two hints and
of the size: the size is one that halving keeps above `fd_lastfile`.
`fdalloc_spec` says that `fdalloc` finds the least unused descriptor or that
there is none; `take_ok`, `put_ok`, `clear_ok` and `copyTable_ok` keep the
invariant.
-/

namespace BsdKernel.Descrip

variable {fd fd' : Filedesc}
variable {i last : Nat}

/-- The slots that refer to a file. -/
def Filedesc.refsIn (fd : Filedesc) (f : FileId) : Nat := fd.slots.countP (·.file = some f)

structure TableOk (fd : Filedesc) : Prop where
  last : fd.lastfile < fd.slots.length
  above : ∀ i, fd.lastfile < i → fd.fileAt i = none
  below : ∀ i < fd.freefile, fd.fileAt i ≠ none
  size : fd.slots.length = NDFILE ∨ ∃ k, fd.slots.length = NDEXTENT * 2 ^ k
  refcnt : fd.refcnt = 1
  free : fd.freefile < 2 ^ 16

/-- What `fdalloc` itself relies on. -/
structure Hinted (fd : Filedesc) : Prop where
  below : ∀ i < fd.freefile, fd.fileAt i ≠ none
  nonempty : 0 < fd.slots.length

/-- What `close` and `fdcopy` rely on. -/
structure Sized (fd : Filedesc) : Prop where
  last : fd.lastfile < fd.slots.length
  size : fd.slots.length = NDFILE ∨ ∃ k, fd.slots.length = NDEXTENT * 2 ^ k

theorem TableOk.sized (h : TableOk fd) : Sized fd := ⟨h.last, h.size⟩

theorem TableOk.hinted (h : TableOk fd) : Hinted fd := ⟨h.below, by have := h.last; omega⟩

/-- The unused descriptors that a call may choose from. -/
def unused (fd : Filedesc) (want lim : Nat) : Set Nat := {i | want ≤ i ∧ i < lim ∧ fd.fileAt i = none}

theorem fileAt_of_ge (h : fd.slots.length ≤ i) : fd.fileAt i = none := by
  simp [Filedesc.fileAt, List.getElem?_eq_none h]

theorem lt_of_fileAt {f : FileId} (h : fd.fileAt i = some f) : i < fd.slots.length := by
  by_contra hge
  rw [fileAt_of_ge (by omega)] at h
  cases h

theorem Hinted.freefile_le (h : Hinted fd) : fd.freefile ≤ fd.slots.length := by
  by_contra hlt
  exact h.below _ (by omega) (fileAt_of_ge (Nat.le_refl _))

/-! ## Allocating a descriptor -/

/-- The table has only grown. -/
structure Grown (fd fd' : Filedesc) : Prop where
  fileAt : ∀ i, fd'.fileAt i = fd.fileAt i
  refsIn : ∀ f, fd'.refsIn f = fd.refsIn f
  freefile : fd'.freefile = fd.freefile

theorem Grown.refl (fd : Filedesc) : Grown fd fd := ⟨fun _ => rfl, fun _ => rfl, rfl⟩

theorem Grown.trans {fd₁ fd₂ fd₃ : Filedesc} (h : Grown fd₁ fd₂) (h' : Grown fd₂ fd₃) : Grown fd₁ fd₃ :=
  ⟨fun i => (h'.fileAt i).trans (h.fileAt i), fun f => (h'.refsIn f).trans (h.refsIn f), h'.freefile.trans h.freefile⟩

theorem Grown.unused (h : Grown fd fd') (want lim : Nat) : unused fd' want lim = unused fd want lim := by
  simp only [Descrip.unused, h.fileAt]

theorem expand_length (fd : Filedesc) :
    (expand fd).slots.length = if fd.slots.length < NDEXTENT then NDEXTENT else 2 * fd.slots.length := by
  simp only [expand, List.length_append, List.length_replicate]
  split <;> omega

theorem expand_grown (fd : Filedesc) : Grown fd (expand fd) := by
  refine ⟨fun i => ?_, fun f => ?_, rfl⟩
  · simp only [Filedesc.fileAt, expand, List.getElem?_append, List.getElem?_replicate]
    split
    · rfl
    · rename_i h
      rw [List.getElem?_eq_none (by omega)]
      generalize fd.slots.length = n
      cases Decidable.em (i - n < (if n < NDEXTENT then NDEXTENT else 2 * n) - n) with
      | inl hlt => rw [if_pos hlt]; rfl
      | inr hlt => rw [if_neg hlt]
  · simp [Filedesc.refsIn, expand, List.countP_append, List.countP_replicate, Slot.zero]

theorem expand_sized (h : Sized fd) : Sized (expand fd) := by
  have hlen := expand_length fd
  have hlast := h.last
  constructor
  · rw [hlen]
    show fd.lastfile < _
    split <;> omega
  · rw [hlen]
    right
    rcases h.size with hs | ⟨k, hk⟩
    · exact ⟨0, by rw [hs]; rfl⟩
    · split
      · exact ⟨0, rfl⟩
      · exact ⟨k + 1, by rw [hk, pow_succ]; ring⟩

theorem expand_ok (h : TableOk fd) : TableOk (expand fd) := by
  have hg := expand_grown fd
  have hs := expand_sized h.sized
  exact ⟨hs.last, fun i hi => (hg.fileAt i).trans (h.above i hi), fun i hi => by rw [hg.fileAt]; exact h.below i hi,
    hs.size, h.refcnt, h.free⟩

theorem search_some {k : Nat} (h : search fd i last = some k) :
    i ≤ k ∧ k < last ∧ fd.fileAt k = none ∧ ∀ j, i ≤ j → j < k → fd.fileAt j ≠ none := by
  rw [search, List.find?_range'_eq_some, List.mem_range'_1] at h
  obtain ⟨hk, ⟨hik, hlast⟩, hmin⟩ := h
  refine ⟨hik, by omega, by simpa using hk, fun j hij hjk hn => ?_⟩
  have := hmin j hij hjk
  simp [hn] at this

theorem search_none (h : search fd i last = none) : ∀ j, i ≤ j → j < last → fd.fileAt j ≠ none := by
  rw [search, List.find?_range'_eq_none] at h
  intro j hij hj hn
  have := h j hij (by omega)
  simp [hn] at this

theorem expand_hinted (h : Hinted fd) : Hinted (expand fd) := by
  have hpos := h.nonempty
  refine ⟨fun i hi => by rw [(expand_grown fd).fileAt]; exact h.below i hi, ?_⟩
  rw [expand_length]
  split <;> omega

/-- The rounds of `fdalloc` grow the table until it has a descriptor to give or
the limit is reached; they keep what growing keeps. -/
theorem fdallocLoop_spec {K : Filedesc → Prop} (hhint : ∀ fd, K fd → Hinted fd) (hexp : ∀ fd, K fd → K (expand fd))
    (want lim fuel : Nat) (h : K fd) (hfuel : lim + 1 - fd.slots.length < fuel) :
    (∃ base i, fdallocLoop want lim fuel fd = (take base want i, .ok i) ∧ Grown fd base ∧ K base ∧
        i < base.slots.length ∧ IsLeast (unused fd want lim) i) ∨
      ∃ base, fdallocLoop want lim fuel fd = (base, .error .EMFILE) ∧ Grown fd base ∧ K base ∧
        unused fd want lim = ∅ := by
  induction fuel generalizing fd with
  | zero => omega
  | succ fuel ih =>
    rw [fdallocLoop]
    cases hs : search fd (max want fd.freefile) (min fd.slots.length lim) with
    | some i =>
      obtain ⟨h₁, h₂, h₃, h₄⟩ := search_some hs
      refine .inl ⟨fd, i, rfl, .refl fd, h, by omega, ⟨by omega, by omega, h₃⟩, ?_⟩
      rintro j ⟨hw, -, hn⟩
      by_contra hlt
      by_cases hf : fd.freefile ≤ j
      · exact h₄ j (by omega) (by omega) hn
      · exact (hhint fd h).below j (by omega) hn
    | none =>
      have hnone := search_none hs
      simp only
      split
      · refine .inr ⟨fd, rfl, .refl fd, h, Set.eq_empty_of_forall_notMem ?_⟩
        rintro j ⟨hw, hj, hn⟩
        by_cases hf : fd.freefile ≤ j
        · exact hnone j (by omega) (by omega) hn
        · exact (hhint fd h).below j (by omega) hn
      · have hg := expand_grown fd
        have hpos := (hhint fd h).nonempty
        have hlen : fd.slots.length < (expand fd).slots.length := by
          rw [expand_length]
          split <;> omega
        rcases ih (hexp fd h) (by omega) with ⟨base, i, he, hb, hok, hi, hleast⟩ | ⟨base, he, hb, hok, hempty⟩
        · exact .inl ⟨base, i, he, hg.trans hb, hok, hi, hg.unused want lim ▸ hleast⟩
        · exact .inr ⟨base, he, hg.trans hb, hok, hg.unused want lim ▸ hempty⟩

theorem fdalloc_spec (h : TableOk fd) (want lim : Nat) :
    (∃ base i, fdalloc fd want lim = (take base want i, .ok i) ∧ Grown fd base ∧ TableOk base ∧
        i < base.slots.length ∧ IsLeast (unused fd want lim) i) ∨
      ∃ base, fdalloc fd want lim = (base, .error .EMFILE) ∧ Grown fd base ∧ TableOk base ∧
        unused fd want lim = ∅ :=
  fdallocLoop_spec (fun _ => TableOk.hinted) (fun _ => expand_ok) want lim _ h (by omega)

theorem ushort_of_lt (h : i < 2 ^ 16) : ushort i = i := Nat.mod_eq_of_lt h

theorem take_fileAt (fd : Filedesc) (want i j : Nat) : (take fd want i).fileAt j = fd.fileAt j := by
  simp only [Filedesc.fileAt, take, List.getElem?_modify]
  cases fd.slots[j]? with
  | none => rfl
  | some slot =>
    simp only [Option.map_eq_map, Option.map_some, Option.bind_some]
    split <;> rfl

theorem countP_modify_of_eq {α : Type} {p : α → Bool} {g : α → α} (hg : ∀ x, p (g x) = p x) (l : List α) (i : Nat) :
    (l.modify i g).countP p = l.countP p := by
  induction l generalizing i with
  | nil => simp
  | cons x l ih => cases i <;> simp [List.countP_cons, hg, ih]

theorem take_refsIn (fd : Filedesc) (want i : Nat) (f : FileId) : (take fd want i).refsIn f = fd.refsIn f :=
  countP_modify_of_eq (by simp) _ _

/-- The hints after `fdalloc`, for a descriptor that a `u_short` holds. -/
theorem take_ok (h : TableOk fd) {want lim : Nat} (hi : i < fd.slots.length) (hleast : IsLeast (unused fd want lim) i)
    (hshort : i < 2 ^ 16) : TableOk (take fd want i) ∧ i ≤ (take fd want i).lastfile := by
  have hlast : (take fd want i).lastfile = max i fd.lastfile := by
    simp only [take, ushort_of_lt hshort]
    split <;> omega
  refine ⟨⟨?_, ?_, ?_, by simpa [take] using h.size, h.refcnt, ?_⟩, by omega⟩
  · have := h.last
    rw [hlast]
    simp only [take, List.length_modify]
    omega
  · intro j hj
    rw [take_fileAt]
    exact h.above j (by omega)
  · intro j hj
    rw [take_fileAt]
    intro hn
    by_cases hf : j < fd.freefile
    · exact h.below j hf hn
    · simp only [take, ushort_of_lt hshort] at hj
      split at hj
      · have := hleast.2 ⟨by omega, by have := hleast.1.2.1; omega, hn⟩
        omega
      · omega
  · simp only [take, ushort_of_lt hshort]
    split
    · exact hshort
    · exact h.free

/-! ## Filling and clearing a slot -/

theorem fileAt_set {slots : List Slot} (hi : i < slots.length) (slot : Slot) (last free cnt j : Nat) :
    (⟨slots.set i slot, last, free, cnt⟩ : Filedesc).fileAt j =
      if j = i then slot.file else (⟨slots, last, free, cnt⟩ : Filedesc).fileAt j := by
  simp only [Filedesc.fileAt, List.getElem?_set]
  by_cases h : i = j
  · rw [if_pos h, if_pos (h ▸ hi), if_pos h.symm]
    rfl
  · rw [if_neg h, if_neg (Ne.symm h)]

theorem refsIn_set (hi : i < fd.slots.length) (slot : Slot) (last free cnt : Nat) (f : FileId) :
    (⟨fd.slots.set i slot, last, free, cnt⟩ : Filedesc).refsIn f + (if fd.fileAt i = some f then 1 else 0) =
      fd.refsIn f + if slot.file = some f then 1 else 0 := by
  have hat : fd.fileAt i = fd.slots[i].file := by simp [Filedesc.fileAt, hi]
  have hle : (if fd.slots[i].file = some f then 1 else 0) ≤ fd.refsIn f := by
    split
    · exact List.countP_pos_iff.2 ⟨fd.slots[i], List.getElem_mem hi, by simpa⟩
    · omega
  simp only [Filedesc.refsIn] at hle ⊢
  rw [List.countP_set hi, hat]
  simp only [decide_eq_true_eq]
  omega

theorem put_ok (h : TableOk fd) (hi : i < fd.slots.length) (hlast : last < fd.slots.length) (hle : i ≤ last)
    (hge : fd.lastfile ≤ last) (f : FileId) (flags : BitVec 8) :
    TableOk { fd with slots := fd.slots.set i ⟨some f, flags⟩, lastfile := last } := by
  refine ⟨by simpa using hlast, fun j hj => ?_, fun j hj => ?_, by simpa using h.size, h.refcnt, h.free⟩
  · rw [fileAt_set hi, if_neg (by simp only at hj; omega)]
    exact h.above j (by simp only at hj; omega)
  · rw [fileAt_set hi]
    split
    · simp
    · exact h.below j hj

theorem modify_file (hi : i < fd.slots.length) (f : FileId) :
    fd.slots.modify i ({ · with file := some f }) = fd.slots.set i ⟨some f, fd.slots[i].flags⟩ := by
  apply List.ext_getElem?
  intro j
  rw [List.getElem?_modify, List.getElem?_set]
  by_cases hj : i = j
  · subst hj
    simp [hi]
  · simp [hj]

theorem lowerLast_spec (fd : Filedesc) (n : Nat) :
    lowerLast fd n ≤ n ∧ ∀ j, lowerLast fd n < j → j ≤ n → fd.fileAt j = none := by
  induction n with
  | zero => exact ⟨Nat.le_refl _, fun j h₁ h₂ => by rw [lowerLast] at h₁; omega⟩
  | succ n ih =>
    rw [lowerLast]
    split
    · rename_i hn
      refine ⟨by omega, fun j h₁ h₂ => ?_⟩
      rcases Nat.lt_or_eq_of_le h₂ with hlt | rfl
      · exact ih.2 j h₁ (by omega)
      · exact hn
    · exact ⟨Nat.le_refl _, fun j h₁ h₂ => by omega⟩

theorem clear_fileAt (hi : i < fd.slots.length) (j : Nat) :
    (clear fd i).fileAt j = if j = i then none else fd.fileAt j := fileAt_set hi Slot.zero _ _ _ j

theorem clear_refsIn (hi : i < fd.slots.length) (f : FileId) :
    (clear fd i).refsIn f + (if fd.fileAt i = some f then 1 else 0) = fd.refsIn f := by
  rw [clear, refsIn_set hi, if_neg (by simp [Slot.zero]), Nat.add_zero]

theorem clear_ok (h : TableOk fd) (hi : i < fd.slots.length) : TableOk (clear fd i) := by
  have hfree : (clear fd i).freefile = min i fd.freefile := by
    have := h.free
    simp only [clear]
    split
    · rw [ushort_of_lt (by omega)]
      omega
    · omega
  obtain ⟨hle, hnone⟩ := lowerLast_spec { fd with slots := fd.slots.set i Slot.zero } fd.lastfile
  have hlast : (clear fd i).lastfile ≤ fd.lastfile := hle
  refine ⟨?_, fun j hj => ?_, fun j hj => ?_, by simpa [clear] using h.size, h.refcnt, by have := h.free; omega⟩
  · have := h.last
    simp only [clear, List.length_set] at hlast ⊢
    omega
  · by_cases hj' : j ≤ fd.lastfile
    · exact hnone j hj hj'
    · rw [clear_fileAt hi]
      split
      · rfl
      · exact h.above j (by omega)
  · rw [clear_fileAt hi, if_neg (by omega)]
    exact h.below j (by omega)

/-! ## Copying a table -/

/-- Halving keeps a size of the form of `fdalloc` above `fd_lastfile`, and goes
on as long as the loop says. -/
theorem shrink_spec (lastfile fuel k : Nat) (hlast : lastfile < NDEXTENT * 2 ^ k) :
    ∃ j, shrink lastfile fuel (NDEXTENT * 2 ^ k) = NDEXTENT * 2 ^ j ∧ j ≤ k ∧ lastfile < NDEXTENT * 2 ^ j ∧
      (k < fuel → ¬(NDEXTENT * 2 ^ j > 2 * NDEXTENT ∧ NDEXTENT * 2 ^ j > lastfile * 2)) := by
  induction fuel generalizing k with
  | zero => exact ⟨k, rfl, Nat.le_refl _, hlast, fun h => by omega⟩
  | succ fuel ih =>
    rw [shrink]
    split
    · rename_i hgt
      cases k with
      | zero => simp [NDEXTENT] at hgt
      | succ k =>
        have hhalf : NDEXTENT * 2 ^ (k + 1) / 2 = NDEXTENT * 2 ^ k := by
          rw [pow_succ, ← Nat.mul_assoc, Nat.mul_div_cancel _ (by decide)]
        have hlt : lastfile < NDEXTENT * 2 ^ k := by
          have := hgt.2
          rw [pow_succ, ← Nat.mul_assoc] at this
          omega
        obtain ⟨j, hj, hjk, hl, hdone⟩ := ih k hlt
        exact ⟨j, by rw [hhalf, hj], by omega, hl, fun h => hdone (by omega)⟩
    · rename_i hn
      exact ⟨k, rfl, Nat.le_refl _, hlast, fun _ => hn⟩

/-- The copy is as large as the loop of `fdcopy` leaves it. -/
theorem copySize_spec (h : Sized fd) :
    (copySize fd = NDFILE ∨ ∃ k, copySize fd = NDEXTENT * 2 ^ k) ∧ fd.lastfile < copySize fd ∧
      copySize fd ≤ fd.slots.length ∧
      (NDFILE ≤ fd.lastfile → ¬(copySize fd > 2 * NDEXTENT ∧ copySize fd > fd.lastfile * 2)) := by
  have hlast := h.last
  unfold copySize
  split
  · rename_i hlt
    refine ⟨.inl rfl, hlt, ?_, fun hge => by omega⟩
    rcases h.size with hs | ⟨k, hk⟩
    · omega
    · rw [hk]
      exact (show NDFILE ≤ NDEXTENT * 1 by decide).trans (Nat.mul_le_mul_left _ Nat.one_le_two_pow)
  · rename_i hge
    rcases h.size with hs | ⟨k, hk⟩
    · omega
    · rw [hk] at hlast ⊢
      obtain ⟨j, hj, hjk, hl, hdone⟩ := shrink_spec fd.lastfile (NDEXTENT * 2 ^ k) k hlast
      have hfuel : k < NDEXTENT * 2 ^ k := Nat.lt_two_pow_self.trans_le (Nat.le_mul_of_pos_left _ (by decide))
      rw [hj]
      exact ⟨.inr ⟨j, rfl⟩, hl, Nat.mul_le_mul_left _ (Nat.pow_le_pow_right (by decide) hjk), fun _ => hdone hfuel⟩

theorem copyTable_sized (h : Sized fd) : Sized (copyTable fd) := by
  obtain ⟨hsize, hlast, hle, -⟩ := copySize_spec h
  have hlen : (copyTable fd).slots.length = copySize fd := by
    simp only [copyTable, List.length_take]
    omega
  exact ⟨by rw [hlen]; exact hlast, by rw [hlen]; exact hsize⟩

theorem copyTable_fileAt (h : TableOk fd) (i : Nat) : (copyTable fd).fileAt i = fd.fileAt i := by
  obtain ⟨-, hlast, -⟩ := copySize_spec h.sized
  simp only [Filedesc.fileAt, copyTable, List.getElem?_take]
  split
  · rfl
  · have := h.above i (by omega)
    simpa [Filedesc.fileAt] using this.symm

theorem copyTable_ok (h : TableOk fd) : TableOk (copyTable fd) := by
  have hs := copyTable_sized h.sized
  exact ⟨hs.last, fun i hi => (copyTable_fileAt h i).trans (h.above i hi),
    fun i hi => by rw [copyTable_fileAt h]; exact h.below i hi, hs.size, rfl, h.free⟩

theorem openFiles_eq (h : TableOk fd) : fd.openFiles = fd.slots.filterMap (·.file) := by
  have hrest : (fd.slots.drop (fd.lastfile + 1)).filterMap (·.file) = [] := by
    rw [List.filterMap_eq_nil_iff]
    intro slot hslot
    obtain ⟨i, hi, rfl⟩ := List.mem_drop_iff_getElem.1 hslot
    have hnone := h.above (fd.lastfile + 1 + i) (by omega)
    rwa [Filedesc.fileAt, List.getElem?_eq_getElem (by omega)] at hnone
  conv_rhs => rw [← List.take_append_drop (fd.lastfile + 1) fd.slots, List.filterMap_append, hrest, List.append_nil]
  rfl

theorem openFiles_count (h : TableOk fd) (f : FileId) : fd.openFiles.count f = fd.refsIn f := by
  rw [openFiles_eq h, List.count_filterMap, Filedesc.refsIn]
  exact List.countP_congr (by simp)

theorem copyTable_openFiles (h : TableOk fd) : (copyTable fd).openFiles = fd.openFiles := by
  obtain ⟨-, hlast, -⟩ := copySize_spec h.sized
  simp only [Filedesc.openFiles, copyTable, List.take_take]
  rw [Nat.min_eq_left (by omega)]

theorem copyTable_refsIn (h : TableOk fd) (f : FileId) : (copyTable fd).refsIn f = fd.refsIn f := by
  rw [← openFiles_count (copyTable_ok h), copyTable_openFiles h, openFiles_count h]

end BsdKernel.Descrip
