import BsdKernel.Ufs.BallocFail
import BsdKernel.Ufs.Indirtrunc
/-!
# A block within a file

`balloc` of `ufs/ufs_bmap.c` for a block that begins before the end of the file,
as `itrunc` calls it. Nothing is moved or freed then: if the block has no
address, it gets one, and so do the indirect blocks on the way to it.
-/

namespace BsdKernel.UfsTrunc

open BsdKernel.Lib BsdKernel.UfsBmap

variable {fs : Fs} {env : Env} {s s' s₀ : State}
variable {n l m a lbn : Nat} {x : Slot}

/-! ## The order of the slots -/

/-- The first logical block that is reached through a slot. -/
def first (fs : Fs) : Slot → Nat
  | .direct i => i
  | .indirect l p => NDADDR + levelBase fs.NINDIR l + firstBelow fs.NINDIR l p

theorem idx_digits {N k : Nat} (h : n < N ^ k) : idx N (digits N k n) = n := by
  induction k generalizing n with
  | zero =>
    simp only [pow_zero] at h
    simp only [digits, idx]
    omega
  | succ k ih =>
    rw [pow_succ'] at h
    rw [digits, idx, ih (Nat.div_lt_of_lt_mul h), Nat.mod_add_div]

theorem firstBelow_path {N j : Nat} (hj : j ≤ l + 1) (hm : m < N ^ (l + 1)) :
    firstBelow N l (digits N j (m / N ^ (l + 1 - j))) = m / N ^ (l + 1 - j) * N ^ (l + 1 - j) := by
  have hlt : m / N ^ (l + 1 - j) < N ^ j := by
    apply Nat.div_lt_of_lt_mul
    rwa [← pow_add, Nat.sub_add_cancel hj]
  rw [firstBelow, digits_length, idx_digits hlt]

theorem first_path (fs : Fs) {j : Nat} (hj : j ≤ l + 1) (hm : m < fs.NINDIR ^ (l + 1)) :
    first fs (.indirect l (digits fs.NINDIR j (m / fs.NINDIR ^ (l + 1 - j)))) ≤ NDADDR + levelBase fs.NINDIR l + m := by
  rw [first, firstBelow_path hj hm]
  have := Nat.div_mul_le_self m (fs.NINDIR ^ (l + 1 - j))
  omega

theorem first_dataSlot (hm : m < 2 ^ 31) (hx : dataSlot fs m = some x) : first fs x = m := by
  rcases dataSlot_cases (by exact_mod_cast hm) hx with ⟨i, -, hbn, rfl⟩ | ⟨l, -, k, hk, hbn, -, -, rfl⟩
  · rw [first]
    omega
  · have hpath := firstBelow_path (j := l + 1) le_rfl hk
    simp only [Nat.sub_self, pow_zero, Nat.div_one, Nat.mul_one] at hpath
    rw [first, hpath]
    omega

theorem len_congr {ip ip' : Inode} (h : ip'.size = ip.size) : len fs ip' = len fs ip := by
  funext x
  cases x with
  | direct i => simp only [len, blksize, h]
  | indirect l p => rfl

/-! ## Sectors -/

theorem sector_dvd (fs : Fs) : 512 ∣ fs.fsize := by
  rcases fs.bsize_pow with h | h | h | h | h <;> rcases fs.frags with h' | h' | h' | h' <;> omega

theorem btodb_add (hm : fs.fsize ∣ m) : btodb (m + n) = btodb m + btodb n := by
  obtain ⟨k, rfl⟩ := (sector_dvd fs).trans hm
  rw [btodb, btodb, btodb, Nat.mul_add_div (by decide), Nat.mul_div_cancel_left _ (by decide)]

/-- Between `s₀` and `s` the file has got fragments, which were free, and they are counted. -/
def Took (fs : Fs) (s₀ s : State) : Prop :=
  ∃ new : Finset Nat, Disjoint new s₀.held ∧ s.held = s₀.held ∪ new ∧
    s.ip.blocks = s₀.ip.blocks + btodb (new.card * fs.fsize)

theorem Took.refl (fs : Fs) (s : State) : Took fs s s := ⟨∅, by simp, by simp, by simp [btodb]⟩

theorem numfrags_mul_fsize (fs : Fs) : fs.numfrags fs.bsize * fs.fsize = fs.bsize :=
  Nat.div_mul_cancel fs.fsize_dvd

theorem Took.more (h : Took fs s₀ s) (hfree : Disjoint (piece fs a fs.bsize) s.held)
    (hheld : s'.held = s.held ∪ piece fs a fs.bsize) (hblocks : s'.ip.blocks = s.ip.blocks + btodb fs.bsize) :
    Took fs s₀ s' := by
  obtain ⟨new, hdis, hheld₀, hblocks₀⟩ := h
  rw [hheld₀, Finset.disjoint_union_right] at hfree
  refine ⟨new ∪ piece fs a fs.bsize, Finset.disjoint_union_left.2 ⟨hdis, hfree.1⟩, ?_, ?_⟩
  · rw [hheld, hheld₀, Finset.union_assoc]
  · have hcard : (piece fs a fs.bsize).card = fs.numfrags fs.bsize := by simp [piece]
    rw [hblocks, hblocks₀, Finset.card_union_of_disjoint hfree.2.symm, hcard, Nat.add_mul, numfrags_mul_fsize,
      btodb_add (Nat.dvd_mul_left fs.fsize new.card)]
    push_cast
    ring

/-! ## The way to the block -/

/-- Since `s₀` the file has got indirect blocks on the way to the block `lbn`, which has no address then. -/
structure Linked (fs : Fs) (lbn : Nat) (s₀ s : State) : Prop where
  grew : Grew fs s₀ s
  entries : ∀ a i, fs.NINDIR ≤ i → s.ptrs a i = 0
  freed : s.freed = s₀.freed
  took : Took fs s₀ s
  same : ∀ x, addr s x = addr s₀ x ∨ addr s₀ x = 0 ∧ first fs x ≤ lbn
  hole : s.held = s₀.held ∨ dataAddr fs s₀ lbn = 0

theorem Linked.refl (h : Sound fs (len fs s.ip) s) (hentries : ∀ a i, fs.NINDIR ≤ i → s.ptrs a i = 0) (lbn : Nat) :
    Linked fs lbn s s where
  grew := ⟨h, rfl, rfl, rfl, fun _ _ => rfl, fun _ hf hn => absurd hf hn⟩
  entries := hentries
  freed := rfl
  took := Took.refl fs s
  same _ := .inl rfl
  hole := .inl rfl

/-- Another indirect block on the way. -/
theorem Linked.link (h : Linked fs lbn s₀ s) (ha : a ≠ 0) (hfree : Disjoint (piece fs a fs.bsize) s.held) {y : Slot}
    (hy : y.Inner) (hempty : addr s y = 0) (hfirst : first fs y ≤ lbn) (hhole : dataAddr fs s₀ lbn = 0)
    (hip : s'.ip.size = s.ip.size) (hbufs : s'.bufs = s.bufs) (hdisk : s'.disk = s.disk)
    (hheld : s'.held = s.held ∪ piece fs a fs.bsize) (hblocks : s'.ip.blocks = s.ip.blocks + btodb fs.bsize)
    (hfreed : s'.freed = s.freed) (hentries : ∀ a i, fs.NINDIR ≤ i → s'.ptrs a i = 0)
    (haddr : addr s' = Function.update (addr s) y a) :
    Linked fs lbn s₀ s' where
  grew := h.grew.link ha hfree hy hempty hip hbufs hdisk hheld haddr
  entries := hentries
  freed := hfreed.trans h.freed
  took := h.took.more hfree hheld hblocks
  same x := by
    by_cases hxy : x = y
    · subst hxy
      refine .inr ⟨?_, hfirst⟩
      rcases h.same x with hsame | ⟨hzero, -⟩
      · rw [← hsame, hempty]
      · exact hzero
    · rw [haddr, Function.update_of_ne hxy]
      exact h.same x
  hole := .inr hhole

/-- `balloc` has provided the block `lbn` with the buffer `b`. -/
structure Provided (fs : Fs) (lbn : Nat) (b : Buf) (s₀ s : State) : Prop where
  slot : ∃ x, dataSlot fs lbn = some x ∧ addr s x ≠ 0 ∧ b.blkno = fs.toDb (addr s x) ∧ b.data.length = len fs s₀.ip x
  size : s.ip.size = s₀.ip.size
  extents : Extents (addr s) (len fs s₀.ip) s.held
  bufs : s.bufs.filter (·.1 ≠ lbn) = s₀.bufs.filter (·.1 ≠ lbn)
  disk : s.disk = s₀.disk
  entries : ∀ a i, fs.NINDIR ≤ i → s.ptrs a i = 0
  freed : s.freed = s₀.freed
  took : Took fs s₀ s
  same : ∀ x, addr s x = addr s₀ x ∨ addr s₀ x = 0 ∧ first fs x ≤ lbn ∧ (¬x.Inner → dataSlot fs lbn = some x)
  hole : s.held = s₀.held ∨ dataAddr fs s₀ lbn = 0

/-- All reads succeed. -/
def Reads (env : Env) : Prop := (∀ a, env.devread a = true) ∧ ∀ m, env.vnread m = true

/-- A block that has an address is read. -/
theorem Linked.read (h : Linked fs lbn s₀ s) (hread : Reads env) (hlbn : lbn < 2 ^ 31) (hx : dataSlot fs lbn = some x)
    (ha : addr s x ≠ 0) :
    (bread fs env lbn (blksize fs s.ip lbn)).wp (fun b s' => b.blkno = fs.toDb (addr s x) ∧ s' = setBuf lbn b s ∧ Provided fs lbn b s₀ s')
      (fun e _ => e.NoRoom ∧ dataAddr fs s₀ lbn = 0) s := by
  apply wp_mono (wp_and (bread_spec h.grew.sound hlbn hx ha) (bread_fails lbn (blksize fs s.ip lbn)))
  · rintro b s' ⟨⟨rfl, hblk, -, hlen⟩, -⟩
    have hsize : len fs s.ip = len fs s₀.ip := len_congr h.grew.size
    refine ⟨hblk, rfl, ⟨x, hx, ha, hblk, by rw [hlen, hsize]⟩, h.grew.size, ?_, ?_, h.grew.disk, h.entries, h.freed, h.took, fun y => ?_,
      h.hole⟩
    · rw [← hsize]
      exact h.grew.sound.extents
    · simp [UfsBmap.setBuf, List.filter_filter, h.grew.bufs]
    · rcases h.same y with hsame | ⟨hzero, hfirst⟩
      · exact .inl hsame
      · by_cases hy : y.Inner
        · exact .inr ⟨hzero, hfirst, fun hn => absurd hy hn⟩
        · exact .inl (h.grew.data y hy)
  · rintro e s' ⟨-, -, hno⟩
    exact absurd (.inr (hread.2 lbn)) hno

/-- A block that has no address gets one. -/
theorem Linked.provide (h : Linked fs lbn s₀ s) (hlbn : lbn < 2 ^ 31) (hx : dataSlot fs lbn = some x)
    (hlen : len fs s₀.ip x = fs.numfrags fs.bsize) (hempty : addr s x = 0) (ha : a ≠ 0)
    (hfree : Disjoint (piece fs a fs.bsize) s.held) {b : Buf} (hblk : b.blkno = fs.toDb a)
    (hdata : b.data.length = fs.numfrags fs.bsize) (haddr : addr s' = Function.update (addr s) x a)
    (hip : s'.ip.size = s.ip.size) (hbufs : s'.bufs.filter (·.1 ≠ lbn) = s.bufs.filter (·.1 ≠ lbn))
    (hdisk : s'.disk = s.disk) (hheld : s'.held = s.held ∪ piece fs a fs.bsize)
    (hblocks : s'.ip.blocks = s.ip.blocks + btodb fs.bsize) (hfreed : s'.freed = s.freed)
    (hentries : ∀ a i, fs.NINDIR ≤ i → s'.ptrs a i = 0) : Provided fs lbn b s₀ s' := by
  have hni := dataSlot_not_inner (by exact_mod_cast hlbn) hx
  have hzero : addr s₀ x = 0 := by rw [← h.grew.data x hni, hempty]
  have hself : addr s' x = a := by rw [haddr, Function.update_self]
  refine ⟨⟨x, hx, by rwa [hself], by rw [hself, hblk], by rw [hdata, hlen]⟩, hip.trans h.grew.size, ?_, ?_, hdisk.trans h.grew.disk,
    hentries, hfreed.trans h.freed, h.took.more hfree hheld hblocks, fun y => ?_, ?_⟩
  · have hgive := h.grew.sound.extents.give (n := fs.numfrags fs.bsize) hempty hfree
    rw [len_congr h.grew.size, ← hlen, Function.update_eq_self, ← haddr] at hgive
    rw [hheld, piece, ← hlen]
    exact hgive
  · rw [hbufs, h.grew.bufs]
  · by_cases hyx : y = x
    · subst hyx
      exact .inr ⟨hzero, (first_dataSlot hlbn hx).le, fun _ => hx⟩
    · rw [haddr, Function.update_of_ne hyx]
      rcases h.same y with hsame | ⟨hz, hfirst⟩
      · exact .inl hsame
      · by_cases hy : y.Inner
        · exact .inr ⟨hz, hfirst, fun hn => absurd hy hn⟩
        · exact .inl (h.grew.data y hy)
  · right
    simp only [dataAddr, hx, hzero]

theorem newBuf_spec (lbn size nb : Nat) {E : Stop → State → Prop} :
    (newBuf fs env true lbn size nb).wp
      (fun b s' => b.blkno = fs.toDb nb ∧ b.data.length = fs.numfrags size ∧ s' = setBuf lbn b s) E s := by
  obtain ⟨b, hb, -⟩ := getblk_eq (s := s) env lbn (fs.numfrags size)
  simp only [newBuf, wp_bind, if_true, wp_modify, wp_pure]
  simp only [Cmd.wp, hb]
  exact ⟨trivial, zeros_length _, setBuf_setBuf _ _ _⟩

/-! ## Indirect blocks -/

theorem clrPtrs_entries (h : ∀ a i, fs.NINDIR ≤ i → s.ptrs a i = 0) (b : Nat) :
    ∀ a i, fs.NINDIR ≤ i → (clrPtrs b s).ptrs a i = 0 := by
  intro a i hi
  by_cases ha : a = b
  · simp [clrPtrs, ha]
  · simp [clrPtrs, ha, h a i hi]

theorem setPtr_entries (h : ∀ a i, fs.NINDIR ≤ i → s.ptrs a i = 0) {i : Nat} (hi : i < fs.NINDIR) (ind a : Nat) :
    ∀ c j, fs.NINDIR ≤ j → (setPtr ind i a s).ptrs c j = 0 := by
  intro c j hj
  have hji : j ≠ i := by omega
  by_cases hc : c = ind
  · subst hc
    simp [setPtr, hji, h c j hj]
  · simp [setPtr, hc, h c j hj]

theorem ballocData_within (h : Linked fs lbn s₀ s) (hread : Reads env) (hlbn : lbn < 2 ^ 31) {i ind : Nat}
    {p : List Nat} (hl : l < NIADDR) (hp : p.length = l) (hx : dataSlot fs lbn = some (.indirect l (i :: p)))
    (hnode : node s.ptrs (s.ip.ib l) p = ind) (hind : ind ≠ 0) (hi : i < fs.NINDIR) (hlow : NDADDR ≤ lbn) :
    (ballocData fs env lbn true ind i (s.ptrs ind i)).wp (fun b s' => Provided fs lbn b s₀ s')
      (fun e _ => e.NoRoom ∧ dataAddr fs s₀ lbn = 0) s := by
  have haddrx : addr s (.indirect l (i :: p)) = s.ptrs ind i := by
    rw [addr_indirect hl (by simp only [List.length_cons]; omega), node_cons (by rwa [hnode]), hnode]
  simp only [ballocData, wp_ite, wp_bind, if_true]
  refine ⟨fun hhole => ?_, fun hne => ?_⟩
  · apply wp_mono (alloc_spec le_rfl fs.fsize_dvd)
    swap
    · intro e _ he
      refine ⟨he.1, ?_⟩
      simp only [dataAddr, hx]
      rw [← h.grew.data _ (dataSlot_not_inner (by exact_mod_cast hlbn) hx), haddrx, hhole]
    rintro a s' ⟨ha, hfree, rfl⟩
    apply wp_mono (newBuf_spec lbn fs.bsize a (E := fun _ _ => False)) _ fun _ _ hf => hf.elim
    rintro b s' ⟨hblk, hdata, rfl⟩
    simp only [wp_modify, wp_pure]
    have hind' : addr s (.indirect l p) = ind := (addr_indirect hl (by omega)).trans hnode
    have hset := addr_setPtr (s := setBuf lbn b (take (piece fs a fs.bsize) fs.bsize s)) (c := ind) (i := i) (a := a) hl hp.le
      hnode hind (h.grew.only rfl hind' hind) hhole fun hlow => absurd hlow (by omega)
    refine h.provide (x := .indirect l (i :: p)) hlbn hx rfl (haddrx.trans hhole) ha hfree hblk hdata hset rfl ?_ rfl rfl rfl rfl
      (setPtr_entries (s := setBuf lbn b (take (piece fs a fs.bsize) fs.bsize s)) h.entries hi ind a)
    simp [UfsBmap.setBuf, setPtr, List.filter_filter]
  · have hfull : blksize fs s.ip lbn = fs.bsize := blksize_full (.inl hlow)
    rw [← hfull]
    exact wp_mono (h.read hread hlbn hx (by rwa [haddrx])) (fun _ _ hb => hb.2.2) fun _ _ he => he

section Levels
variable {lbn l m : Nat}

theorem Linked.no_data (h : Linked fs lbn s₀ s) (hlbn : lbn < 2 ^ 31) (hl : l < NIADDR)
    (hx : dataSlot fs lbn = some (.indirect l (digits fs.NINDIR (l + 1) m))) {k : Nat} (hk : k ≤ l)
    (hempty : node s.ptrs (s.ip.ib l) (digits fs.NINDIR (l - k) (m / fs.NINDIR ^ (k + 1))) = 0) : dataAddr fs s₀ lbn = 0 := by
  have hni := dataSlot_not_inner (by exact_mod_cast hlbn) hx
  have hpath : digits fs.NINDIR (l + 1) m =
      digits fs.NINDIR (k + 1) m ++ digits fs.NINDIR (l - k) (m / fs.NINDIR ^ (k + 1)) := by
    rw [← digits_append]
    congr 1
    omega
  simp only [dataAddr, hx]
  rw [← h.grew.data _ hni, addr_indirect hl (digits_length _ _ _).le, hpath]
  exact node_append_zero hempty _

/-- The loop through the indirect blocks, `k` of which are to come after `ind`. -/
theorem ballocLevels_within (hread : Reads env) (hlbn : lbn < 2 ^ 31) (hl : l < NIADDR) (hm : m < fs.NINDIR ^ (l + 1))
    (hbn : lbn = NDADDR + levelBase fs.NINDIR l + m)
    (hx : dataSlot fs lbn = some (.indirect l (digits fs.NINDIR (l + 1) m))) (k : Nat) :
    ∀ (s : State) (ind : Nat), k ≤ l → Linked fs lbn s₀ s →
      node s.ptrs (s.ip.ib l) (digits fs.NINDIR (l - k) (m / fs.NINDIR ^ (k + 1))) = ind → ind ≠ 0 →
      (ballocLevels fs env lbn true m k (fs.NINDIR ^ (k + 1) : Nat) ind).wp (fun b s' => Provided fs lbn b s₀ s')
        (fun e _ => e.NoRoom ∧ dataAddr fs s₀ lbn = 0) s := by
  have hsh : ∀ k : Nat, ((fs.NINDIR ^ (k + 1) : Nat) : Int) / fs.NINDIR = (fs.NINDIR ^ k : Nat) := fun k => by
    rw [← Int.natCast_div, pow_succ, Nat.mul_div_cancel _ fs.NINDIR_pos]
  have hdigits : ∀ k j : Nat, digits fs.NINDIR (j + 1) (m / fs.NINDIR ^ k) =
      m / fs.NINDIR ^ k % fs.NINDIR :: digits fs.NINDIR j (m / fs.NINDIR ^ (k + 1)) := fun k j => by
    rw [digits, Nat.div_div_eq_div_mul, ← pow_succ]
  induction k with
  | zero =>
    intro s ind _ h hnode hind
    rw [ballocLevels]
    simp only [hread.1, if_true, wp_bind, wp_get, hsh, index_eq]
    have hd := hdigits 0 l
    rw [pow_zero, Nat.div_one] at hd ⊢
    rw [hd] at hx
    exact ballocData_within h hread hlbn hl (digits_length _ _ _) hx hnode hind (Nat.mod_lt _ fs.NINDIR_pos) (by omega)
  | succ k ih =>
    intro s ind hk h hnode hind
    rw [ballocLevels]
    simp only [hread.1, if_true, wp_bind, wp_get, hsh, index_eq, wp_ite, wp_modify]
    have hd := hdigits (k + 1) (l - (k + 1))
    rw [show l - (k + 1) + 1 = l - k by omega] at hd
    have hcons : node s.ptrs (s.ip.ib l) (digits fs.NINDIR (l - k) (m / fs.NINDIR ^ (k + 1))) =
        s.ptrs ind (m / fs.NINDIR ^ (k + 1) % fs.NINDIR) := by
      rw [hd, node_cons (by rwa [hnode]), hnode]
    refine ⟨fun hne => ih s _ (by omega) h hcons hne, fun hnb => ?_⟩
    have hhole : s.ptrs ind (m / fs.NINDIR ^ (k + 1) % fs.NINDIR) = 0 := not_not.1 hnb
    have hlen : (digits fs.NINDIR (l - k) (m / fs.NINDIR ^ (k + 1))).length = l - k := digits_length _ _ _
    have hlen' : (digits fs.NINDIR (l - (k + 1)) (m / fs.NINDIR ^ (k + 1 + 1))).length = l - (k + 1) := digits_length _ _ _
    have hnone := h.no_data hlbn hl hx (by omega) (hcons.trans hhole)
    apply wp_mono (alloc_spec le_rfl fs.fsize_dvd)
    swap
    · exact fun e _ he => ⟨he.1, hnone⟩
    rintro a s' ⟨ha, hfree, rfl⟩
    have hi : m / fs.NINDIR ^ (k + 1) % fs.NINDIR < fs.NINDIR := Nat.mod_lt _ fs.NINDIR_pos
    generalize m / fs.NINDIR ^ (k + 1) % fs.NINDIR = i at hd hcons hhole hi
    have haddr : addr s (.indirect l (digits fs.NINDIR (l - (k + 1)) (m / fs.NINDIR ^ (k + 1 + 1)))) = ind :=
      (addr_indirect hl (by omega)).trans hnode
    have hempty : addr s (.indirect l (digits fs.NINDIR (l - k) (m / fs.NINDIR ^ (k + 1)))) = 0 := by
      rw [addr_indirect hl (by omega), hcons, hhole]
    have hia : ind ≠ a := by
      rw [← haddr]
      exact h.grew.ne_free hfree (by rwa [haddr])
    -- the new block is cleared and then linked
    have hclr : addr (clrPtrs a (take (piece fs a fs.bsize) fs.bsize s)) = addr s :=
      addr_clrPtrs (s := take (piece fs a fs.bsize) fs.bsize s) fun x => h.grew.ne_free hfree
    have hset := addr_setPtr (s := clrPtrs a (take (piece fs a fs.bsize) fs.bsize s)) (c := ind) (i := i) (a := a) hl
      (hlen'.trans_le (Nat.sub_le _ _)) (by rw [← addr_indirect hl (by omega), hclr, haddr]) hind (h.grew.only hclr haddr hind)
      (by simp [clrPtrs, hia, hhole]) fun _ => ⟨by simp [clrPtrs], Ne.symm hia⟩
    rw [hclr, ← hd] at hset
    have hfirst : first fs (.indirect l (digits fs.NINDIR (l - k) (m / fs.NINDIR ^ (k + 1)))) ≤ lbn := by
      have hpath := first_path fs (j := l - k) (by omega) hm
      rw [show l + 1 - (l - k) = k + 1 by omega] at hpath
      omega
    have hlinked : Linked fs lbn s₀ (setPtr ind i a (clrPtrs a (take (piece fs a fs.bsize) fs.bsize s))) :=
      h.link ha hfree (by simp only [Slot.Inner]; omega) hempty hfirst
        hnone rfl rfl rfl rfl rfl rfl
        (setPtr_entries (clrPtrs_entries (s := take (piece fs a fs.bsize) fs.bsize s) h.entries a) hi ind a) hset
    refine ih _ a (by omega) hlinked ?_ ha
    rw [← addr_indirect hl (by omega), hset, Function.update_self]

end Levels

/-- The level of indirection of a block. -/
def AtLevel (fs : Fs) (lbn : Nat) (found : Option (Nat × Int × Int)) : Prop :=
  ∃ l < NIADDR, ∃ m < fs.NINDIR ^ (l + 1), found = some (NIADDR - l, ((fs.NINDIR ^ (l + 1) : Nat) : Int), (m : Int)) ∧
    lbn = NDADDR + levelBase fs.NINDIR l + m ∧ dataSlot fs lbn = some (.indirect l (digits fs.NINDIR (l + 1) m))

theorem ballocFrom_within (h : Sound fs (len fs s.ip) s) (hentries : ∀ a i, fs.NINDIR ≤ i → s.ptrs a i = 0)
    (hread : Reads env) (hlbn : lbn < 2 ^ 31) {found : Option (Nat × Int × Int)} (hfound : AtLevel fs lbn found) :
    (ballocFrom fs env lbn true found).wp (fun b s' => Provided fs lbn b s s')
      (fun e _ => e.NoRoom ∧ dataAddr fs s lbn = 0) s := by
  obtain ⟨l, hl, m, hm, rfl, hbn, hx⟩ := hfound
  have hlinked := Linked.refl h hentries lbn
  have hlj : NIADDR - (NIADDR - l) = l := by omega
  have hroot : digits fs.NINDIR (l - l) (m / fs.NINDIR ^ (l + 1)) = [] := by rw [Nat.sub_self, digits]
  simp only [ballocFrom, hlj]
  simp only [wp_bind, wp_get, wp_ite, wp_modify]
  refine ⟨fun hnb => ?_, fun hnb => ?_⟩
  · have hnone := hlinked.no_data hlbn hl hx le_rfl (by rw [hroot]; exact hnb)
    apply wp_mono (alloc_spec le_rfl fs.fsize_dvd)
    swap
    · exact fun e _ he => ⟨he.1, hnone⟩
    rintro a s' ⟨ha, hfree, rfl⟩
    have hclr : addr (clrPtrs a (take (piece fs a fs.bsize) fs.bsize s)) = addr s :=
      addr_clrPtrs (s := take (piece fs a fs.bsize) fs.bsize s) fun x => hlinked.grew.ne_free hfree
    have hset := addr_setIb (s := clrPtrs a (take (piece fs a fs.bsize) fs.bsize s)) (a := a) hl hnb (by simp [clrPtrs])
    rw [hclr] at hset
    have hempty : addr s (.indirect l []) = 0 := (addr_indirect hl (Nat.zero_le _)).trans hnb
    have hfirst : first fs (.indirect l []) ≤ lbn := by
      have hpath := first_path fs (j := 0) (Nat.zero_le _) hm
      rw [digits] at hpath
      omega
    have hlinked' : Linked fs lbn s (setIb l a (clrPtrs a (take (piece fs a fs.bsize) fs.bsize s))) :=
      hlinked.link ha hfree (y := .indirect l []) (Nat.zero_le l) hempty hfirst
        hnone rfl rfl rfl rfl rfl rfl
        (clrPtrs_entries (s := take (piece fs a fs.bsize) fs.bsize s) hentries a) hset
    apply ballocLevels_within hread hlbn hl hm hbn hx l _ a le_rfl hlinked' _ ha
    rw [hroot]
    simp [node, setIb]
  · apply ballocLevels_within hread hlbn hl hm hbn hx l s _ le_rfl hlinked _ hnb
    rw [hroot, node]

/-! ## Direct blocks -/

theorem ballocDirect_within (h : Consistent fs s) (hentries : ∀ a i, fs.NINDIR ≤ i → s.ptrs a i = 0)
    (hread : Reads env) (hdir : lbn < NDADDR) {length : Nat} (hlength : length < s.ip.size)
    (hlbn : lbn = length / fs.bsize) :
    (ballocDirect fs env lbn (length % fs.bsize) true).wp (fun b s' => Provided fs lbn b s s')
      (fun e _ => e.NoRoom ∧ dataAddr fs s lbn = 0) s := by
  have hlbn31 : lbn < 2 ^ 31 := by
    unfold NDADDR at hdir
    omega
  have hlinked := Linked.refl h.sound hentries lbn
  have hx : dataSlot fs lbn = some (.direct lbn) := direct_slot hdir
  have haddr := addr_direct (s := s) hdir
  have hread' := fun ha => hlinked.read hread hlbn31 hx ha
  have hlow : lbn * fs.bsize ≤ length := by
    rw [hlbn]
    exact Nat.div_mul_le_self _ _
  -- where the file ends in the block
  have hend : s.ip.size < (lbn + 1) * fs.bsize → s.ip.size / fs.bsize = lbn ∧ length % fs.bsize < s.ip.size % fs.bsize := by
    intro hlt
    have hdiv : s.ip.size / fs.bsize = lbn := by
      rw [Nat.div_eq_iff fs.bsize_pos, Nat.add_mul] at *
      omega
    have hdm := Nat.div_add_mod length fs.bsize
    have hdm' := Nat.div_add_mod s.ip.size fs.bsize
    rw [← hlbn] at hdm
    rw [hdiv] at hdm'
    exact ⟨hdiv, by omega⟩
  simp only [ballocDirect, wp_bind, wp_get, wp_ite]
  refine ⟨fun hfull => ?_, fun hshort => ⟨fun hnb => ⟨fun _ => ?_, fun hlong => ?_⟩, fun hnb => ?_⟩⟩
  · rw [← blksize_full (.inr hfull.2)]
    exact wp_mono (hread' (by rw [haddr]; exact hfull.1)) (fun _ _ hb => hb.2.2) fun _ _ he => he
  · have hlt : s.ip.size < (lbn + 1) * fs.bsize := by
      by_contra hge
      exact hshort ⟨hnb, by omega⟩
    rw [← blksize_last hdir hlt]
    apply wp_mono (hread' (by rwa [haddr])) _ fun _ _ he => he
    rintro b s' ⟨hblk, rfl, hprovided⟩
    simp only [wp_modify, wp_pure]
    have hself : setDb lbn (fs.toFsb b.blkno) (setBuf lbn b s) = setBuf lbn b s := by
      rw [hblk, haddr, Fs.toFsb_toDb, setDb, setBuf_ip, Function.update_eq_self]
      rfl
    rwa [hself]
  · have hlt : s.ip.size < (lbn + 1) * fs.bsize := by
      by_contra hge
      exact hshort ⟨hnb, by omega⟩
    exact absurd (fs.fragroundup_mono (hend hlt).2.le) hlong
  · have hhole : s.ip.db lbn = 0 := not_not.1 hnb
    have hfull : ¬s.ip.size < (lbn + 1) * fs.bsize := by
      intro hlt
      obtain ⟨hdiv, hmod⟩ := hend hlt
      exact h.shape.last lbn hdir hdiv (by omega) hhole
    rw [if_neg hfull]
    apply wp_mono (alloc_spec le_rfl fs.fsize_dvd)
    swap
    · intro e _ he
      refine ⟨he.1, ?_⟩
      simp only [dataAddr, hx]
      exact haddr.trans hhole
    rintro a s' ⟨ha, hfree, rfl⟩
    apply wp_mono (newBuf_spec lbn fs.bsize a (E := fun _ _ => False)) _ fun _ _ hf => hf.elim
    rintro b s' ⟨hblk, hdata, rfl⟩
    simp only [wp_modify, wp_pure, hblk, Fs.toFsb_toDb]
    have hlen : len fs s.ip (.direct lbn) = fs.numfrags fs.bsize := by
      rw [len, blksize_full (.inr (by omega))]
    refine hlinked.provide hlbn31 hx hlen (haddr.trans hhole) ha hfree hblk hdata
      (addr_setDb (s := setBuf lbn b (take (piece fs a fs.bsize) fs.bsize s)) hdir a) rfl ?_ rfl rfl rfl rfl hentries
    simp [UfsBmap.setBuf, setDb, List.filter_filter]

/-! ## Whole calls -/

/-- No fragment is made a full block for a block that begins before the end of the file. -/
theorem ballocFrag_skips (h : Shape fs s.ip) {bn : Int} (hbn : bn ≤ (s.ip.size / fs.bsize : Nat)) {c : Cmd State Stop Unit}
    (hc : c = ballocFrag fs env bn) : c.wp (fun _ s' => s' = s) (fun _ _ => False) s := by
  have hnb : int32 (s.ip.size / fs.bsize : Nat) = (s.ip.size / fs.bsize : Nat) := by
    have hbound := h.bound
    generalize s.ip.size / fs.bsize = nb at hbound ⊢
    exact int32_small (by omega) (by omega)
  rw [hc]
  simp only [ballocFrag, wp_bind, wp_get]
  generalize int32 (s.ip.size / fs.bsize : Nat) = nb at hnb ⊢
  subst hnb
  simp only [wp_ite, wp_pure]
  refine ⟨fun hends => ?_, fun _ => trivial⟩
  omega

/-- The blocks of the first 4 gigabytes are reached through two indirect blocks at most. -/
theorem level_ends (fs : Fs) (hn : n < 2 ^ 20) : ∃ r, level fs NIADDR 1 n = some r := by
  obtain ⟨h1, h2, -⟩ := fs.products
  have hN : 1024 ≤ fs.NINDIR ∧ fs.NINDIR ≤ 16384 := by
    rcases fs.NINDIR_eq with h | h | h | h | h <;> omega
  have hsq : 1024 ^ 2 ≤ fs.NINDIR ^ 2 := Nat.pow_le_pow_left hN.1 2
  rw [NIADDR, level]
  simp only [h1]
  by_cases hs1 : (n : Int) < fs.NINDIR
  · exact ⟨_, if_pos hs1⟩
  · have hsub : int32 (n - fs.NINDIR) = ((n - fs.NINDIR : Nat) : Int) := by
      rw [int32_small] <;> omega
    have hs2 : ((n - fs.NINDIR : Nat) : Int) < (fs.NINDIR ^ 2 : Nat) := by
      have : n - fs.NINDIR < fs.NINDIR ^ 2 := by omega
      exact_mod_cast this
    rw [if_neg hs1, level, hsub]
    simp only [h2]
    exact ⟨_, if_pos hs2⟩

theorem dataSlot_some (fs : Fs) (hm : m < 2 ^ 20) : ∃ x, dataSlot fs m = some x := by
  by_cases hdir : m < NDADDR
  · exact ⟨_, direct_slot hdir⟩
  · have hsub : (m : Int) - NDADDR = (m - NDADDR : Nat) := by omega
    obtain ⟨⟨j, sh, r⟩, hr⟩ := level_ends fs (n := m - NDADDR) (by omega)
    have hneg : ¬(m : Int) < 0 := by omega
    have hdir' : ¬(m : Int) < NDADDR := by omega
    rw [dataSlot, if_neg hneg, if_neg hdir', hsub, hr]
    exact ⟨_, rfl⟩

theorem atLevel_level (hlbn : lbn < 2 ^ 20) (hlow : NDADDR ≤ lbn) {found : Option (Nat × Int × Int)}
    (hfound : found = level fs NIADDR 1 (lbn - NDADDR)) : AtLevel fs lbn found := by
  obtain ⟨x, hx⟩ := dataSlot_some fs hlbn
  rcases dataSlot_cases (by omega) hx with ⟨i, hi, hbn, -⟩ | ⟨l, hl, m, hm, hbn, -, hlevel, rfl⟩
  · omega
  · exact ⟨l, hl, m, hm, hfound.trans hlevel, by omega, hx⟩

theorem ballocIndirect_within (h : Sound fs (len fs s.ip) s) (hentries : ∀ a i, fs.NINDIR ≤ i → s.ptrs a i = 0)
    (hread : Reads env) (hlbn : lbn < 2 ^ 20) (hlow : NDADDR ≤ lbn) {c : Cmd State Stop Buf}
    (hc : c = ballocIndirect fs env lbn true) :
    c.wp (fun b s' => Provided fs lbn b s s')
      (fun e _ => e.NoRoom ∧ dataAddr fs s lbn = 0) s := by
  obtain ⟨found, hfound⟩ : ∃ found, found = level fs NIADDR 1 (lbn - NDADDR) := ⟨_, rfl⟩
  rw [ballocIndirect, ← hfound] at hc
  rw [hc]
  exact ballocFrom_within h hentries hread (by omega) (atLevel_level hlbn hlow hfound)

/-- `balloc` of the block in which `length` is, before the end of the file, provides the block or says that there is no
room. -/
theorem balloc_within (h : Consistent fs s) (hentries : ∀ a i, fs.NINDIR ≤ i → s.ptrs a i = 0) (hread : Reads env)
    {length : Nat} (hlength : length < s.ip.size) (hlt : length < 2 ^ 32) {c : Cmd State Stop Buf}
    (hc : c = balloc fs env (length / fs.bsize : Nat) (length % fs.bsize) true) :
    c.wp (fun b s' => Provided fs (length / fs.bsize) b s s')
      (fun e _ => e.NoRoom ∧ dataAddr fs s (length / fs.bsize : Nat) = 0) s := by
  have hlbn : length / fs.bsize < 2 ^ 20 := by
    apply Nat.div_lt_of_lt_mul
    have := fs.bsize_bounds
    omega
  have hbefore : length / fs.bsize ≤ s.ip.size / fs.bsize := Nat.div_le_div_right hlength.le
  generalize hgen : length / fs.bsize = lbn at hlbn hbefore hc ⊢
  have hneg : ¬(lbn : Int) < 0 := by omega
  rw [balloc, if_neg hneg, Int.toNat_natCast] at hc
  obtain ⟨frag, hfrag⟩ : ∃ c, c = ballocFrag fs env lbn := ⟨_, rfl⟩
  obtain ⟨indirect, hindirect⟩ : ∃ c, c = ballocIndirect fs env lbn true := ⟨_, rfl⟩
  rw [← hfrag, ← hindirect] at hc
  rw [hc, wp_bind]
  apply wp_mono (ballocFrag_skips h.shape (by exact_mod_cast hbefore) hfrag)
  · rintro u s' rfl
    rw [wp_ite]
    refine ⟨fun hdir => ?_, fun hdir => ?_⟩
    · exact ballocDirect_within h hentries hread (by exact_mod_cast hdir) hlength hgen.symm
    · exact ballocIndirect_within h.sound hentries hread hlbn (by omega) hindirect
  · exact fun _ _ hf => hf.elim

end BsdKernel.UfsTrunc
