import BsdKernel.Ufs.BmapAlloc
/-!
# A block that cannot be allocated

`balloc` of `ufs/ufs_bmap.c` makes up to five allocations in a row, and stops at
the first that fails. The indirect blocks it has linked by then stay, empty; a
fragment at the end of the file that it has made a full block stays one, and
`i_size` with it.

`balloc_fails_iff` says in which cases a failed call leaves the file as it was.
-/

namespace BsdKernel.UfsBmap

open BsdKernel.Lib

variable {e : Stop}

/-- The file is as it was in `s`: the size, the map and the data up to it; and what was taken from the free map since
is in a block of the file. -/
structure Kept (fs : Fs) (s s' : State) : Prop where
  size : s'.ip.size = s.ip.size
  map : ∀ m : Nat, m * fs.bsize < s.ip.size → bmap fs (fun _ => true) s' m = bmap fs (fun _ => true) s m
  data : ∀ m : Nat, m * fs.bsize < s.ip.size → contents fs s' m = contents fs s m
  held : ∀ f ∈ s'.held, f ∉ s.held → ∃ x, addr s' x ≠ 0 ∧ f ∈ extent (addr s') (len fs s'.ip) x

/-- The file ends in a fragment before the block `bn`. -/
def EndsInFrag (fs : Fs) (s : State) (bn : Int) : Prop :=
  s.ip.size / fs.bsize < NDADDR ∧ ((s.ip.size / fs.bsize : Nat) : Int) < bn ∧
    0 < blksize fs s.ip (s.ip.size / fs.bsize) ∧ blksize fs s.ip (s.ip.size / fs.bsize) < fs.bsize

/-- The block `i` can get `nsize` bytes: neither reserve nor quota is exhausted, it can be read, and there is room behind
it or elsewhere. -/
def Env.Grants (fs : Fs) (env : Env) (s : State) (i nsize : Nat) : Prop :=
  env.nospace s.held nsize = false ∧ (incore s i ≠ none ∨ env.vnread i = true) ∧
    env.overquota s.held (nsize - blksize fs s.ip i) = false ∧
    (env.fragextend s.held (s.ip.db i) (fs.numfrags (blksize fs s.ip i)) (fs.numfrags nsize) = true ∨
      env.hashalloc s.held (fs.numfrags (if env.opttime then fs.bsize else nsize)) ≠ none)

/-- The fragment that the file ends in becomes a full block. -/
def Grows (fs : Fs) (env : Env) (s : State) (bn : Int) : Prop :=
  EndsInFrag fs s bn ∧ env.Grants fs s (s.ip.size / fs.bsize) fs.bsize

variable {fs : Fs} {env : Env} {s s' s₀ : State}

/-! ## What a file reads -/

theorem strategy_congr {m n : Nat} (hm : m < 2 ^ 31) (haddr : dataAddr fs s' m = dataAddr fs s m)
    (hdisk : s'.disk = s.disk) : strategy fs s' m n = strategy fs s m n := by
  have hm' : (m : Int) < 2 ^ 31 := by exact_mod_cast hm
  simp only [strategy, bmap_eq hm', haddr, diskRead, hdisk]

/-- A block reads the same if its address, its buffer, the disk and the size do not change. -/
theorem contents_same {m : Nat} (hm : m < 2 ^ 31) (hsize : s'.ip.size = s.ip.size)
    (haddr : dataAddr fs s' m = dataAddr fs s m) (hbuf : incore s' m = incore s m) (hdisk : s'.disk = s.disk) :
    contents fs s' m = contents fs s m := by
  simp only [contents, hbuf, strategy_congr hm haddr hdisk, blksize, hsize]

theorem Kept.same (fs : Fs) (s : State) : Kept fs s s :=
  ⟨rfl, fun _ _ => rfl, fun _ _ => rfl, fun _ hf hn => absurd hf hn⟩

/-- A buffer with what is read anyway makes no difference. -/
theorem Kept.setBuf (hbound : s.ip.size / fs.bsize < 2 ^ 31) {i : Nat} {b : Buf} (hb : b.data = contents fs s i) :
    Kept fs s (setBuf i b s) where
  size := rfl
  map m hm := by
    have hm' : (m : Int) < 2 ^ 31 := by
      have := (Nat.le_div_iff_mul_le fs.bsize_pos).2 hm.le
      omega
    rw [bmap_eq hm', bmap_eq hm']
    exact rfl
  data m hm := by
    by_cases hmi : m = i
    · subst hmi
      rw [contents_setBuf_self, hb]
    · have hm' : m < 2 ^ 31 := by
        have := (Nat.le_div_iff_mul_le fs.bsize_pos).2 hm.le
        omega
      have hbuf : incore (UfsBmap.setBuf i b s) m = incore s m := by rw [incore_setBuf, if_neg hmi]
      exact contents_same hm' rfl rfl hbuf rfl
  held _ hf hn := absurd hf hn

/-! ## Calls that fail -/

theorem getblk_returns (lbn n : Nat) {Q : Buf → State → Prop} {E : Stop → State → Prop} (h : ∀ b s', Q b s') :
    (getblk env lbn n).wp Q E s := by
  obtain ⟨b, hb, -⟩ := getblk_eq (s := s) env lbn n
  simp only [Cmd.wp, hb]
  exact h b _

/-- A read fails if the block is not in the cache and cannot be read, and changes nothing then. -/
theorem bread_fails (lbn size : Nat) :
    (bread fs env lbn size).wp (fun _ _ => incore s lbn ≠ none ∨ env.vnread lbn = true)
      (fun _ s' => s' = s ∧ ¬(incore s lbn ≠ none ∨ env.vnread lbn = true)) s := by
  simp only [bread, wp_bind, wp_get]
  cases hc : incore s lbn with
  | some c => exact getblk_returns _ _ fun _ _ => .inl (by simp)
  | none =>
    simp only [wp_ite, wp_bind, wp_modify, wp_pure, wp_fail]
    exact ⟨fun hread => .inr hread, fun hread => ⟨trivial, by simpa using hread⟩⟩

theorem alloc_fails (size : Nat) :
    (alloc fs env size).wp
      (fun a s' => a ≠ 0 ∧ Disjoint (piece fs a size) s.held ∧ s' = take (piece fs a size) size s)
      (fun _ s' => s' = s) s := by
  simp only [alloc, wp_bind, wp_get, wp_ite, wp_fail]
  refine ⟨fun _ => trivial, fun _ => ⟨fun _ => trivial, fun _ => ⟨fun _ => trivial, fun _ => ?_⟩⟩⟩
  cases hh : env.hashalloc s.held (fs.numfrags size) with
  | none => exact rfl
  | some a =>
    obtain ⟨ha, hfree⟩ := env.hashalloc_free _ _ _ hh
    simp only [wp_bind, wp_modify, wp_pure]
    exact ⟨ha, hfree, trivial⟩

/-- `realloccg` of a direct block succeeds exactly if it is granted, and otherwise leaves the block in the cache at
most. -/
theorem realloccg_fails (h : Sound fs (len fs s.ip) s) (hbound : s.ip.size / fs.bsize < 2 ^ 31) {i : Nat} (hi : i < NDADDR)
    (nsize : Nat) :
    (realloccg fs env i (blksize fs s.ip i) nsize).wp
      (fun _ s' => s'.ip.size = s.ip.size ∧ env.Grants fs s i nsize)
      (fun _ s' => Kept fs s s' ∧ (nsize ≤ fs.bsize → fs.fsize ∣ nsize → s.ip.db i ≠ 0 → ¬env.Grants fs s i nsize)) s := by
  have hx : dataSlot fs i = some (.direct i) := direct_slot hi
  have haddr := addr_direct (s := s) hi
  have hi31 : i < 2 ^ 31 := by
    unfold NDADDR at hi
    omega
  have hmod : blksize fs s.ip i % fs.fsize = 0 := Nat.mod_eq_zero_of_dvd (blksize_dvd _ _)
  have hle : blksize fs s.ip i ≤ fs.bsize := blksize_le s.ip i
  simp only [realloccg, wp_bind, wp_get, wp_ite, wp_fail]
  refine ⟨fun hbad => ⟨Kept.same fs s, fun hn hdvd _ => ?_⟩, fun _ => ⟨fun hno => ⟨Kept.same fs s, fun _ _ _ hg => ?_⟩,
    fun hyes => ⟨fun h0 => ⟨Kept.same fs s, fun _ _ hne => absurd h0 hne⟩, fun ha => ?_⟩⟩⟩
  · omega
  · rw [hg.1] at hno
    cases hno
  · -- the block is read
    apply wp_mono (wp_and (bread_spec h hi31 hx (haddr ▸ ha)) (bread_fails i (blksize fs s.ip i)))
    swap
    · rintro e s' ⟨-, rfl, hno⟩
      exact ⟨Kept.same fs s', fun _ _ _ hg => hno hg.2.1⟩
    rintro b s' ⟨⟨rfl, hblk, hdata, hlen⟩, hread⟩
    have hkept : Kept fs s (UfsBmap.setBuf i b s) := Kept.setBuf hbound hdata
    simp only [wp_modify, wp_pure, Bool.not_eq_true] at hyes ⊢
    refine ⟨fun hover => ⟨hkept, fun _ _ _ hg => ?_⟩, fun hquota => ⟨fun hin => ⟨fun hbad => ?_, fun _ => ?_⟩,
      fun hout => ?_⟩⟩
    · rw [hg.2.2.1] at hover
      cases hover
    · exact absurd (hblk.trans (by rw [haddr])) hbad
    · exact ⟨rfl, hyes, hread, hquota, .inl hin⟩
    · cases hh : env.hashalloc s.held (fs.numfrags (if env.opttime then fs.bsize else nsize)) with
      | none =>
        refine ⟨hkept, fun _ _ _ hg => ?_⟩
        rcases hg.2.2.2 with hext | hmove
        · exact Bool.false_ne_true (hout.symm.trans hext)
        · exact hmove hh
      | some a =>
        have hgrants : env.Grants fs s i nsize := ⟨hyes, hread, hquota, .inr (by rw [hh]; exact Option.some_ne_none a)⟩
        simp only [wp_bind, wp_modify, wp_pure, wp_ite, blkfree]
        exact ⟨fun _ => ⟨rfl, hgrants⟩, fun _ => ⟨rfl, hgrants⟩⟩

/-! ## Direct blocks -/

/-- A direct block that cannot be allocated leaves the file as it was. -/
theorem ballocDirect_fails (h : Consistent fs s) {bn : Nat} (hbn : bn < NDADDR) (size : Nat) (clrbuf : Bool) :
    (ballocDirect fs env bn size clrbuf).wp (fun _ _ => True) (fun _ s' => Kept fs s s') s := by
  have hread : ∀ size, (bread fs env bn size).wp (fun _ _ => True) (fun _ s' => Kept fs s s') s := by
    intro size
    apply wp_mono (bread_fails bn size) fun _ _ _ => trivial
    rintro e s' ⟨rfl, -⟩
    exact Kept.same fs s'
  simp only [ballocDirect, wp_bind, wp_get, wp_ite, wp_modify, wp_pure]
  refine ⟨fun _ => hread _, fun hshort => ⟨fun hnb => ⟨fun _ => hread _, fun _ => ?_⟩, fun _ => ?_⟩⟩
  · -- the file ends in this block
    have hlt : s.ip.size < (bn + 1) * fs.bsize := by
      by_contra hge
      exact hshort ⟨hnb, by omega⟩
    rw [← blksize_last hbn hlt]
    exact wp_mono (realloccg_fails h.sound h.shape.bound hbn _) (fun _ _ _ => trivial) fun _ _ hk => hk.1
  · apply wp_mono (alloc_fails _)
    · intro a s' _
      simp only [newBuf, wp_bind, wp_modify, wp_pure]
      exact getblk_returns _ _ fun _ _ => trivial
    · rintro e s' rfl
      exact Kept.same fs s'

/-! ## Indirect blocks -/

/-- The slot of an indirect block. -/
def Slot.Inner : Slot → Prop
  | .direct _ => False
  | .indirect l p => p.length ≤ l

theorem dataSlot_not_inner {m : Int} {x : Slot} (hm : m < 2 ^ 31) (hx : dataSlot fs m = some x) : ¬x.Inner := by
  rcases dataSlot_cases hm hx with ⟨i, -, -, rfl⟩ | ⟨l, -, k, -, -, -, -, rfl⟩
  · exact id
  · simp only [Slot.Inner, digits_length]
    omega

/-- Since `s₀` the file has got indirect blocks without entries and nothing else. -/
structure Grew (fs : Fs) (s₀ s : State) : Prop where
  sound : Sound fs (len fs s.ip) s
  size : s.ip.size = s₀.ip.size
  bufs : s.bufs = s₀.bufs
  disk : s.disk = s₀.disk
  data : ∀ x : Slot, ¬x.Inner → addr s x = addr s₀ x
  held : ∀ f ∈ s.held, f ∉ s₀.held → ∃ x, addr s x ≠ 0 ∧ f ∈ extent (addr s) (len fs s.ip) x

theorem Grew.kept (h : Grew fs s₀ s) (hbound : s₀.ip.size / fs.bsize < 2 ^ 31) : Kept fs s₀ s := by
  have hsmall : ∀ m : Nat, m * fs.bsize < s₀.ip.size → m < 2 ^ 31 := by
    intro m hm
    have := (Nat.le_div_iff_mul_le fs.bsize_pos).2 hm.le
    omega
  have haddr : ∀ m : Nat, m < 2 ^ 31 → dataAddr fs s m = dataAddr fs s₀ m := by
    intro m hm
    unfold dataAddr
    cases hx : dataSlot fs m with
    | none => rfl
    | some x => exact h.data x (dataSlot_not_inner (by exact_mod_cast hm) hx)
  refine ⟨h.size, fun m hm => ?_, fun m hm => ?_, h.held⟩
  · have hm' : (m : Int) < 2 ^ 31 := by exact_mod_cast hsmall m hm
    rw [bmap_eq hm', bmap_eq hm', haddr m (hsmall m hm)]
  · exact contents_same (hsmall m hm) h.size (haddr m (hsmall m hm)) (by rw [incore, incore, h.bufs]) h.disk

/-- Another indirect block, at a slot that was empty. -/
theorem Grew.link (h : Grew fs s₀ s) {a : Nat} (ha : a ≠ 0) (hfree : Disjoint (piece fs a fs.bsize) s.held) {y : Slot}
    (hy : y.Inner) (hempty : addr s y = 0) (hip : s'.ip.size = s.ip.size) (hbufs : s'.bufs = s.bufs)
    (hdisk : s'.disk = s.disk) (hheld : s'.held = s.held ∪ piece fs a fs.bsize)
    (haddr : addr s' = Function.update (addr s) y a) : Grew fs s₀ s' := by
  have hlen : len fs s'.ip = len fs s.ip := by
    funext x
    cases x with
    | direct i => simp only [len, blksize, hip]
    | indirect l p => rfl
  have hleny : len fs s.ip y = fs.numfrags fs.bsize := by
    cases y with
    | direct i => exact hy.elim
    | indirect l p => rfl
  have hupd : Function.update (len fs s.ip) y (fs.numfrags fs.bsize) = len fs s.ip := by
    rw [← hleny, Function.update_eq_self]
  have hother : ∀ x : Slot, ¬x.Inner → addr s' x = addr s x := by
    intro x hx
    rw [haddr, Function.update_of_ne]
    rintro rfl
    exact hx hy
  refine ⟨⟨?_, ?_, ?_⟩, hip.trans h.size, hbufs.trans h.bufs, hdisk.trans h.disk, fun x hx => (hother x hx).trans (h.data x hx),
    ?_⟩
  · have hgive := h.sound.extents.give (n := fs.numfrags fs.bsize) hempty hfree
    rw [hupd, ← haddr] at hgive
    rw [hlen, hheld]
    exact hgive
  · intro x hx
    rw [hlen]
    by_cases hxy : x = y
    · rw [hxy, hleny]
      exact fs.numfrags_pos (Nat.le_of_dvd fs.bsize_pos fs.fsize_dvd)
    · rw [haddr, Function.update_of_ne hxy] at hx
      exact h.sound.pos x hx
  · intro m b x hm hb hx
    have hni := dataSlot_not_inner (by exact_mod_cast hm) hx
    rw [hother x hni, hlen]
    exact h.sound.bufs m b x hm (by rwa [incore, ← hbufs]) hx
  · intro f hf hnot
    rw [hheld, Finset.mem_union] at hf
    rw [hlen]
    rcases hf with hf | hf
    · obtain ⟨x, hx, hmem⟩ := h.held f hf hnot
      have hxy : x ≠ y := by
        rintro rfl
        exact hx hempty
      refine ⟨x, by rwa [haddr, Function.update_of_ne hxy], ?_⟩
      rw [extent, haddr, Function.update_of_ne hxy]
      exact hmem
    · refine ⟨y, by rwa [haddr, Function.update_self], ?_⟩
      rw [extent, haddr, Function.update_self, hleny]
      exact hf

theorem Grew.only (h : Grew fs s₀ s) (hs' : addr s' = addr s) {c l : Nat} {p : List Nat}
    (hc : addr s (.indirect l p) = c) (hc0 : c ≠ 0) : OnlyAt s' c l p := by
  intro l' p' hl' hp' hc'
  have ha' : addr s (.indirect l' p') = c := by rw [← hs', addr_indirect hl' (by omega), hc']
  have heq := h.sound.extents.inj (by rwa [ha']) (ha'.trans hc.symm) (h.sound.pos _ (by rwa [ha'])) (h.sound.pos _ (by rwa [hc]))
  simpa using heq

theorem Grew.ne_free (h : Grew fs s₀ s) {a : Nat} (hfree : Disjoint (piece fs a fs.bsize) s.held) {x : Slot}
    (hx : addr s x ≠ 0) : addr s x ≠ a := by
  have hpos := fs.numfrags_pos (Nat.le_of_dvd fs.bsize_pos fs.fsize_dvd)
  have hmem : a ∈ piece fs a fs.bsize := Finset.mem_Ico.2 ⟨le_rfl, by omega⟩
  exact h.sound.extents.ne_of_free hx (h.sound.pos x hx) (Finset.disjoint_left.1 hfree hmem)

theorem ballocData_fails (lbn : Nat) (clrbuf : Bool) (ind i nb : Nat) :
    (ballocData fs env lbn clrbuf ind i nb).wp (fun _ _ => True) (fun _ s' => s' = s) s := by
  simp only [ballocData, wp_ite, wp_bind, newBuf, wp_modify, wp_pure]
  refine ⟨fun _ => ?_, fun _ => ⟨fun _ => ?_, fun _ => getblk_returns _ _ fun _ _ => trivial⟩⟩
  · exact wp_mono (alloc_fails _) (fun _ _ _ => getblk_returns _ _ fun _ _ => trivial) fun _ _ he => he
  · exact wp_mono (bread_fails _ _) (fun _ _ _ => trivial) fun _ _ he => he.1

/-- The loop through the indirect blocks, from the one at the path `p` on: it stops with empty ones linked at most. -/
theorem ballocLevels_fails (lbn : Nat) (clrbuf : Bool) (bn : Int) {l : Nat} (hl : l < NIADDR) (k : Nat) :
    ∀ (s : State) (sh : Int) (ind : Nat) (p : List Nat), Grew fs s₀ s → p.length + k = l →
      node s.ptrs (s.ip.ib l) p = ind → ind ≠ 0 →
      (ballocLevels fs env lbn clrbuf bn k sh ind).wp (fun _ _ => True) (fun _ s' => Grew fs s₀ s') s := by
  induction k with
  | zero =>
    intro s sh ind p h hp hnode hind
    rw [ballocLevels]
    simp only [wp_ite, wp_bind, wp_get, wp_fail]
    refine ⟨fun _ => wp_mono (ballocData_fails _ _ _ _ _) (fun _ _ _ => trivial) ?_, fun _ => h⟩
    rintro e s' rfl
    exact h
  | succ k ih =>
    intro s sh ind p h hp hnode hind
    rw [ballocLevels]
    simp only [wp_ite, wp_bind, wp_get, wp_fail, wp_modify]
    generalize ((bn / (sh / fs.NINDIR)) % fs.NINDIR).toNat = i
    have hcons : node s.ptrs (s.ip.ib l) (i :: p) = s.ptrs ind i := by
      rw [node_cons (by rwa [hnode]), hnode]
    refine ⟨fun _ => ⟨fun hnb => ?_, fun hnb => ?_⟩, fun _ => h⟩
    · exact ih s _ _ (i :: p) h (by simp only [List.length_cons]; omega) hcons hnb
    · apply wp_mono (alloc_fails _)
      swap
      · rintro e s' rfl
        exact h
      rintro a s' ⟨ha, hfree, rfl⟩
      have hhole : s.ptrs ind i = 0 := not_not.1 hnb
      have haddr : addr s (.indirect l p) = ind := (addr_indirect hl (by omega)).trans hnode
      have hia : ind ≠ a := by
        rw [← haddr]
        exact h.ne_free hfree (by rwa [haddr])
      have hempty : addr s (.indirect l (i :: p)) = 0 := by
        rw [addr_indirect hl (by simp only [List.length_cons]; omega), hcons, hhole]
      -- the new block is cleared and then linked
      have hclr : addr (clrPtrs a (take (piece fs a fs.bsize) fs.bsize s)) = addr s :=
        addr_clrPtrs (s := take (piece fs a fs.bsize) fs.bsize s) fun x => h.ne_free hfree
      have hset := addr_setPtr (s := clrPtrs a (take (piece fs a fs.bsize) fs.bsize s)) (c := ind) (i := i)
        (a := a) hl (by omega : p.length ≤ l) (by rw [← addr_indirect hl (by omega), hclr, haddr]) hind
        (h.only hclr haddr hind) (by simp [clrPtrs, hia, hhole]) fun _ => ⟨by simp [clrPtrs], Ne.symm hia⟩
      rw [hclr] at hset
      have hgrew : Grew fs s₀ (setPtr ind i a (clrPtrs a (take (piece fs a fs.bsize) fs.bsize s))) :=
        h.link ha hfree (y := .indirect l (i :: p)) (by simp only [Slot.Inner, List.length_cons]; omega) hempty rfl rfl rfl rfl
          hset
      refine ih _ _ a (i :: p) hgrew (by simp only [List.length_cons]; omega) ?_ ha
      rw [← addr_indirect hl (by simp only [List.length_cons]; omega), hset, Function.update_self]

theorem ballocFrom_fails (h : Consistent fs s) (lbn : Nat) (clrbuf : Bool) (found : Option (Nat × Int × Int))
    (hfound : ∀ j sh bn, found = some (j, sh, bn) → ∃ l < NIADDR, j = NIADDR - l) :
    (ballocFrom fs env lbn clrbuf found).wp (fun _ _ => True) (fun _ s' => Grew fs s s') s := by
  have hgrew : Grew fs s s := ⟨h.sound, rfl, rfl, rfl, fun _ _ => rfl, fun f hf hn => absurd hf hn⟩
  cases found with
  | none => exact hgrew
  | some r =>
    obtain ⟨j, sh, bn⟩ := r
    obtain ⟨l, hl, rfl⟩ := hfound j sh bn rfl
    have hlj : NIADDR - (NIADDR - l) = l := by omega
    simp only [ballocFrom, hlj]
    simp only [wp_bind, wp_get, wp_ite, wp_modify]
    refine ⟨fun hnb => ?_, fun hnb => ?_⟩
    · apply wp_mono (alloc_fails _)
      swap
      · rintro e s' rfl
        exact hgrew
      rintro a s' ⟨ha, hfree, rfl⟩
      have hclr : addr (clrPtrs a (take (piece fs a fs.bsize) fs.bsize s)) = addr s :=
        addr_clrPtrs (s := take (piece fs a fs.bsize) fs.bsize s) fun x => hgrew.ne_free hfree
      have hset := addr_setIb (s := clrPtrs a (take (piece fs a fs.bsize) fs.bsize s)) (a := a) hl hnb
        (by simp [clrPtrs])
      rw [hclr] at hset
      have hempty : addr s (.indirect l []) = 0 := (addr_indirect hl (Nat.zero_le _)).trans hnb
      have hgrew' : Grew fs s (setIb l a (clrPtrs a (take (piece fs a fs.bsize) fs.bsize s))) :=
        hgrew.link ha hfree (y := .indirect l []) (Nat.zero_le l) hempty rfl rfl rfl rfl hset
      refine ballocLevels_fails _ _ _ hl l _ _ a [] hgrew' (Nat.zero_add l) ?_ ha
      simp [node, setIb]
    · exact ballocLevels_fails _ _ _ hl l s _ _ [] hgrew (Nat.zero_add l) rfl hnb

theorem ballocIndirect_fails (h : Consistent fs s) {lbn : Nat} (hlbn : lbn < 2 ^ 31) (hle : NDADDR ≤ lbn)
    {clrbuf : Bool} (hfail : ballocIndirect fs env lbn clrbuf s = (.error e, s')) : Grew fs s s' := by
  unfold ballocIndirect at hfail
  have hlow : 0 ≤ (lbn : Int) - NDADDR := by omega
  have hhigh : (lbn : Int) - NDADDR < 2 ^ 31 := by omega
  apply wp_error (ballocFrom_fails h lbn clrbuf _ ?_) hfail
  intro j sh bn hlevel
  obtain ⟨l, hl, -, hj, -⟩ := level_some hlow hhigh hlevel
  exact ⟨l, hl, hj⟩

/-! ## The size -/

/-- A command that ends, well or not, with the size the file had. -/
def KeepsSize {α : Type} (c : Cmd State Stop α) : Prop :=
  ∀ s, c.wp (fun _ s' => s'.ip.size = s.ip.size) (fun _ s' => s'.ip.size = s.ip.size) s

section KeepsSize
variable {α β : Type}
variable {c : Cmd State Stop α}

theorem KeepsSize.error (hc : KeepsSize c) (h : c s = (.error e, s')) : s'.ip.size = s.ip.size :=
  wp_error (E := fun _ s' => s'.ip.size = s.ip.size) (hc s) h

theorem KeepsSize.bind {f : α → Cmd State Stop β} (hc : KeepsSize c) (hf : ∀ a, KeepsSize (f a)) :
    KeepsSize (c >>= f) := by
  intro s
  rw [wp_bind]
  apply wp_mono (hc s)
  · intro a s' h
    rw [← h]
    exact hf a s'
  · exact fun _ _ h => h

theorem KeepsSize.ite {p : Prop} [Decidable p] {d : Cmd State Stop α} (hc : KeepsSize c) (hd : KeepsSize d) :
    KeepsSize (if p then c else d) := by
  split_ifs
  · exact hc
  · exact hd

theorem keepsSize_pure (a : α) : KeepsSize (pure a : Cmd State Stop α) := fun _ => rfl

theorem keepsSize_fail (e : Stop) : KeepsSize (Cmd.fail e : Cmd State Stop α) := fun _ => rfl

theorem keepsSize_get : KeepsSize (Cmd.get : Cmd State Stop State) := fun _ => rfl

theorem keepsSize_modify {g : State → State} (h : ∀ s, (g s).ip.size = s.ip.size) :
    KeepsSize (Cmd.modify g : Cmd State Stop Unit) := h

theorem keepsSize_modify_bind {g : State → State} {f : Unit → Cmd State Stop β} (h : ∀ s, (g s).ip.size = s.ip.size)
    (hf : KeepsSize (f ())) : KeepsSize (Cmd.modify g >>= f) :=
  KeepsSize.bind (keepsSize_modify h) fun _ => hf

end KeepsSize

theorem getblk_size (lbn n : Nat) : KeepsSize (getblk env lbn n) := by
  intro s
  obtain ⟨b, hb, -⟩ := getblk_eq (s := s) env lbn n
  simp only [Cmd.wp, hb]
  rfl

theorem bread_size (lbn size : Nat) : KeepsSize (bread fs env lbn size) := by
  intro s
  simp only [bread, wp_bind, wp_get]
  cases incore s lbn with
  | some b => exact getblk_size _ _ s
  | none =>
    simp only [wp_ite, wp_bind, wp_modify, wp_pure, wp_fail]
    exact ⟨fun _ => rfl, fun _ => trivial⟩

theorem alloc_size (size : Nat) : KeepsSize (alloc fs env size) := by
  intro s
  apply wp_mono (alloc_fails size)
  · rintro a s' ⟨-, -, rfl⟩
    rfl
  · rintro e s' rfl
    rfl

theorem realloccg_size (lbprev osize nsize : Nat) : KeepsSize (realloccg fs env lbprev osize nsize) := by
  apply KeepsSize.bind keepsSize_get
  intro s
  apply KeepsSize.ite (keepsSize_fail _)
  apply KeepsSize.ite (keepsSize_fail _)
  apply KeepsSize.ite (keepsSize_fail _)
  apply KeepsSize.bind (bread_size _ _)
  intro bp
  apply KeepsSize.ite (keepsSize_fail _)
  apply KeepsSize.ite
  · apply KeepsSize.ite (keepsSize_fail _)
    exact keepsSize_modify_bind (fun _ => rfl) (keepsSize_modify_bind (fun _ => rfl) (keepsSize_pure _))
  · dsimp only
    generalize (if env.opttime then fs.bsize else nsize) = request
    cases env.hashalloc s.held (fs.numfrags request) with
    | none => exact keepsSize_fail _
    | some a =>
      refine keepsSize_modify_bind (fun _ => rfl) (keepsSize_modify_bind (fun _ => rfl) ?_)
      split_ifs
      · exact keepsSize_modify_bind (fun _ => rfl) (keepsSize_modify_bind (fun _ => rfl) (keepsSize_pure _))
      · exact KeepsSize.bind (keepsSize_pure ()) fun _ => keepsSize_modify_bind (fun _ => rfl) (keepsSize_pure _)

theorem newBuf_size (clrbuf : Bool) (lbn size nb : Nat) : KeepsSize (newBuf fs env clrbuf lbn size nb) := by
  apply KeepsSize.bind (getblk_size _ _)
  exact fun _ => keepsSize_modify_bind (fun _ => rfl) (keepsSize_pure _)

theorem ballocDirect_size (bn size : Nat) (clrbuf : Bool) : KeepsSize (ballocDirect fs env bn size clrbuf) := by
  have hend : ∀ bp : Buf, KeepsSize (do
      Cmd.modify (setDb bn (fs.toFsb bp.blkno))
      return bp : Cmd State Stop Buf) := fun _ => keepsSize_modify_bind (fun _ => rfl) (keepsSize_pure _)
  apply KeepsSize.bind keepsSize_get
  intro s
  apply KeepsSize.ite (bread_size _ _)
  apply KeepsSize.ite
  · exact KeepsSize.ite (KeepsSize.bind (bread_size _ _) hend) (KeepsSize.bind (realloccg_size _ _ _) hend)
  · exact KeepsSize.bind (alloc_size _) fun _ => KeepsSize.bind (newBuf_size _ _ _ _) hend

theorem ballocData_size (lbn : Nat) (clrbuf : Bool) (ind i nb : Nat) : KeepsSize (ballocData fs env lbn clrbuf ind i nb) := by
  apply KeepsSize.ite
  · apply KeepsSize.bind (alloc_size _)
    intro newb
    apply KeepsSize.bind (newBuf_size _ _ _ _)
    exact fun _ => keepsSize_modify_bind (fun _ => rfl) (keepsSize_pure _)
  · exact KeepsSize.ite (bread_size _ _) (newBuf_size _ _ _ _)

theorem alloc_then_size {β : Type} {g : Nat → State → State} {f : Nat → Cmd State Stop β}
    (hg : ∀ a s, (g a s).ip.size = s.ip.size) (hf : ∀ a, KeepsSize (f a)) :
    KeepsSize (do
      let newb ← alloc fs env fs.bsize
      Cmd.modify (clrPtrs newb)
      Cmd.modify (g newb)
      f newb) := by
  apply KeepsSize.bind (alloc_size _)
  exact fun newb => keepsSize_modify_bind (fun _ => rfl) (keepsSize_modify_bind (hg newb) (hf newb))

theorem ballocLevels_size (lbn : Nat) (clrbuf : Bool) (bn : Int) (k : Nat) (sh : Int) (ind : Nat) :
    KeepsSize (ballocLevels fs env lbn clrbuf bn k sh ind) := by
  induction k generalizing sh ind with
  | zero =>
    rw [ballocLevels]
    apply KeepsSize.ite _ (keepsSize_fail _)
    exact KeepsSize.bind keepsSize_get fun _ => ballocData_size _ _ _ _ _
  | succ k ih =>
    rw [ballocLevels]
    apply KeepsSize.ite _ (keepsSize_fail _)
    apply KeepsSize.bind keepsSize_get
    intro s
    exact KeepsSize.ite (ih _ _) (alloc_then_size (fun _ _ => rfl) fun _ => ih _ _)

theorem ballocFrom_size (lbn : Nat) (clrbuf : Bool) (found : Option (Nat × Int × Int)) :
    KeepsSize (ballocFrom fs env lbn clrbuf found) := by
  cases found with
  | none => exact keepsSize_fail _
  | some r =>
    apply KeepsSize.bind keepsSize_get
    intro s
    exact KeepsSize.ite (alloc_then_size (fun _ _ => rfl) fun _ => ballocLevels_size _ _ _ _ _ _) (ballocLevels_size _ _ _ _ _ _)

theorem ballocIndirect_size {lbn : Nat} {clrbuf : Bool} (hfail : ballocIndirect fs env lbn clrbuf s = (.error e, s')) :
    s'.ip.size = s.ip.size := by
  unfold ballocIndirect at hfail
  exact (ballocFrom_size _ _ _).error hfail

/-! ## Whole calls -/

/-- The fragment at the end of the file is made a full block, or nothing happens. -/
theorem ballocFrag_fails (h : Consistent fs s) (bn : Int) {c : Cmd State Stop Unit} (hc : c = ballocFrag fs env bn) :
    c.wp
      (fun _ s' => Grows fs env s bn ∧ s'.ip.size = (s.ip.size / fs.bsize + 1) * fs.bsize ∨ ¬Grows fs env s bn ∧ s' = s)
      (fun _ s' => ¬Grows fs env s bn ∧ Kept fs s s') s := by
  have hnb : int32 (s.ip.size / fs.bsize : Nat) = (s.ip.size / fs.bsize : Nat) := by
    have hbound := h.shape.bound
    generalize s.ip.size / fs.bsize = nb at hbound ⊢
    exact int32_small (by omega) (by omega)
  rw [hc]
  simp only [ballocFrag, wp_bind, wp_get]
  generalize int32 (s.ip.size / fs.bsize : Nat) = nb at hnb ⊢
  subst hnb
  simp only [wp_ite, wp_pure, Int.toNat_natCast]
  refine ⟨fun hends => ?_, fun hends => .inr ⟨fun hgrows => hends ?_, trivial⟩⟩
  · obtain ⟨hdirect, hbefore, hshort, hsome⟩ := hends
    have hi : s.ip.size / fs.bsize < NDADDR := by exact_mod_cast hdirect
    have hmod : s.ip.size % fs.bsize ≠ 0 := by
      intro hzero
      rw [blksize_last hi (by have := Nat.lt_div_mul_add fs.bsize_pos (a := s.ip.size); rw [Nat.add_mul]; omega), hzero] at hsome
      have : fs.fragroundup 0 = 0 := fs.fragroundup_dvd (dvd_zero _)
      omega
    have hdb := h.shape.last _ hi rfl hmod
    rw [wp_bind]
    apply wp_mono (realloccg_fails h.sound h.shape.bound hi fs.bsize)
    · rintro bp s' ⟨hip, hgrants⟩
      simp only [wp_bind, wp_modify, bwrite]
      exact .inl ⟨⟨⟨hi, hbefore, hsome, hshort⟩, hgrants⟩, rfl⟩
    · rintro e s' ⟨hkept, hno⟩
      exact ⟨fun hgrows => hno le_rfl fs.fsize_dvd hdb hgrows.2, hkept⟩
  · obtain ⟨⟨hi, hbefore, hsome, hshort⟩, -⟩ := hgrows
    exact ⟨by exact_mod_cast hi, hbefore, hshort, hsome⟩

theorem ballocFrag_error (h : Consistent fs s) {bn : Int} {c : Cmd State Stop Unit} (hc : c = ballocFrag fs env bn)
    (hres : c s = (.error e, s')) : ¬Grows fs env s bn ∧ Kept fs s s' := by
  have hfrag := ballocFrag_fails h bn hc
  simpa only [Cmd.wp, hres] using hfrag

theorem ballocFrag_ok (h : Consistent fs s) {bn : Int} {c : Cmd State Stop Unit} (hc : c = ballocFrag fs env bn)
    (hres : c s = (.ok (), s')) :
    Grows fs env s bn ∧ s'.ip.size = (s.ip.size / fs.bsize + 1) * fs.bsize ∨ ¬Grows fs env s bn ∧ s' = s := by
  have hfrag := ballocFrag_fails h bn hc
  simpa only [Cmd.wp, hres] using hfrag

theorem bind_error {α β : Type} {c : Cmd State Stop α} {f : α → Cmd State Stop β} (h : (c >>= f) s = (.error e, s')) :
    c s = (.error e, s') ∨ ∃ a s₁, c s = (.ok a, s₁) ∧ f a s₁ = (.error e, s') := by
  simp only [bind, Cmd.andThen] at h
  rcases hc : c s with ⟨e' | a, s₁⟩
  · rw [hc] at h
    obtain ⟨he, rfl⟩ := Prod.mk.inj h
    cases he
    exact .inl rfl
  · rw [hc] at h
    exact .inr ⟨a, s₁, rfl, h⟩

/-- A call that fails leaves the file as it was exactly if it has not made the fragment at its end a full block. -/
theorem balloc_fails_iff (h : Consistent fs s) {bn : Int} (hbn : bn < 2 ^ 31) (size : Nat) (clrbuf : Bool) {e : Errno}
    (hfail : balloc fs env bn size clrbuf s = (.error (.error e), s')) : Kept fs s s' ↔ ¬Grows fs env s bn := by
  unfold balloc at hfail
  by_cases hneg : bn < 0
  · rw [if_pos hneg] at hfail
    obtain ⟨-, rfl⟩ := Prod.mk.inj hfail
    refine iff_of_true (Kept.same fs s) fun hgrows => ?_
    have hbefore := hgrows.1.2.1
    have : (0 : Int) ≤ (s.ip.size / fs.bsize : Nat) := Int.natCast_nonneg _
    omega
  · rw [if_neg hneg] at hfail
    rcases bind_error hfail with hfrag | ⟨⟨⟩, s₁, hfrag, hrest⟩
    · obtain ⟨hno, hkept⟩ := ballocFrag_error h rfl hfrag
      exact iff_of_true hkept hno
    · rcases ballocFrag_ok h rfl hfrag with ⟨hgrows, hsize⟩ | ⟨hno, rfl⟩
      · -- the size has changed, and nothing changes it back
        have hsize' : s'.ip.size = s₁.ip.size := by
          split_ifs at hrest
          · exact (ballocDirect_size _ _ _).error hrest
          · exact ballocIndirect_size hrest
        refine iff_of_false (fun hkept => ?_) (not_not.2 hgrows)
        have hlt := Nat.lt_div_mul_add fs.bsize_pos (a := s.ip.size)
        have hsame := hkept.size
        rw [Nat.add_mul, Nat.one_mul] at hsize
        omega
      · refine iff_of_true ?_ hno
        split_ifs at hrest with hdirect
        · have hlt : bn.toNat < NDADDR := by omega
          exact wp_error (E := fun _ s' => Kept fs s₁ s') (ballocDirect_fails h hlt _ _) hrest
        · exact (ballocIndirect_fails h (by omega) (by omega) hrest).kept h.shape.bound

/-- Blocks of 4096 bytes in four fragments. -/
def fourFrags : Fs where
  bsize := 4096
  fsize := 1024
  fsbtodb := 1
  bsize_pow := .inl rfl
  frags := .inr (.inr (.inl rfl))

/-- A file of 100 bytes. -/
def hundredBytes : State where
  ip := ⟨100, 2, fun i => if i = 0 then 8 else 0, fun _ => 0⟩
  ptrs := fun _ _ => 0
  bufs := []
  disk := fun _ _ => 0
  held := {8}
  freed := []

/-- There is room behind the file for a full block, and then nothing is left. -/
def oneBlockLeft : Env where
  nospace := fun held _ => decide (4 ≤ held.card)
  overquota := fun _ _ => false
  fragextend := fun held bno o n => decide (Disjoint (Finset.Ico (bno + o) (bno + n)) held)
  hashalloc := fun _ _ => none
  opttime := false
  devread := fun _ => true
  vnread := fun _ => true
  junk := fun _ _ => 0
  hashalloc_free := by simp
  fragextend_free := fun _ _ _ _ => of_decide_eq_true

/-- A file with one block, the direct block 0. -/
theorem singleBlock_addr {a : Nat} (hdb : s.ip.db = fun i => if i = 0 then a else 0) (hib : s.ip.ib = fun _ => 0)
    (x : Slot) (hx : addr s x ≠ 0) : x = .direct 0 := by
  cases x with
  | direct i =>
    by_contra hne
    have hi : i ≠ 0 := fun h => hne (by rw [h])
    simp [addr, slotAddr, hdb, hi] at hx
  | indirect l p =>
    have hzero : ∀ p : List Nat, node s.ptrs 0 p = 0 := fun p => by
      simpa using node_append_zero (rfl : node s.ptrs 0 [] = 0) p
    simp [addr, slotAddr, hib, hzero] at hx

theorem consistent_of_single (hsingle : ∀ x, addr s x ≠ 0 → x = .direct 0)
    (hinside : extent (addr s) (len fs s.ip) (.direct 0) ⊆ s.held) (hpos : 0 < len fs s.ip (.direct 0)) (hbufs : s.bufs = [])
    (hshape : Shape fs s.ip) : Consistent fs s := by
  refine ⟨⟨⟨?_, ?_⟩, ?_, ?_⟩, hshape⟩
  · intro x y hxy hx hy
    exact absurd ((hsingle x hx).trans (hsingle y hy).symm) hxy
  · intro x hx
    rwa [hsingle x hx]
  · intro x hx
    rwa [hsingle x hx]
  · intro m b x _ hb
    rw [incore, hbufs] at hb
    cases hb

theorem hundredBytes_consistent : Consistent fourFrags hundredBytes := by
  apply consistent_of_single
  · exact singleBlock_addr rfl rfl
  · decide
  · decide
  · rfl
  · refine ⟨?_, ?_, ?_⟩
    · intro i _ hsize
      have hi : i ≠ 0 := by
        rintro rfl
        simp [hundredBytes] at hsize
      exact if_neg hi
    · intro i _ hlast _
      have hi : i = 0 := hlast.symm
      rw [hi]
      decide
    · decide

theorem balloc_fails_hundredBytes :
    Kept fourFrags hundredBytes (balloc fourFrags oneBlockLeft 1 1 true hundredBytes).2 ↔
      ¬Grows fourFrags oneBlockLeft hundredBytes 1 :=
  balloc_fails_iff (e := .enospc) hundredBytes_consistent (by decide) 1 true (Prod.ext rfl rfl)

/-- The write of a byte behind the block fails, and the file has grown to a full block. -/
theorem balloc_grown : ∃ e s', balloc fourFrags oneBlockLeft 1 1 true hundredBytes = (.error (.error e), s') ∧
    ¬Kept fourFrags hundredBytes s' := by
  refine ⟨.enospc, (balloc fourFrags oneBlockLeft 1 1 true hundredBytes).2, ?_, fun hkept => ?_⟩
  · exact Prod.ext rfl rfl
  · exact absurd hkept.size (by decide)

end BsdKernel.UfsBmap
