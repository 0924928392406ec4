import BsdKernel.Ufs.BallocWithin
/-!
# The size of a file that is truncated

The first half of `itrunc` of `ufs/ufs_inode.c`: the block in which the file is
to end is provided, and what follows the new end in it is cleared. Once the
buffers are written, the disk has zeros there.
-/

namespace BsdKernel.UfsTrunc

open BsdKernel.Lib BsdKernel.UfsBmap

variable {fs : Fs} {env : Env} {s s' s₀ : State} {length : Nat}

/-- A consistent file: `i_blocks` counts what it holds, an indirect block has `NINDIR` entries, and the cache has one
buffer at most for a block, and only for those of the map. -/
structure Regular (fs : Fs) (s : State) : Prop where
  consistent : Consistent fs s
  counted : s.ip.blocks = btodb (s.held.card * fs.fsize)
  entries : ∀ a i, fs.NINDIR ≤ i → s.ptrs a i = 0
  cached : (s.bufs.map Prod.fst).Nodup
  mapped : ∀ e ∈ s.bufs, e.1 < 2 ^ 31 ∧ dataSlot fs e.1 ≠ none

/-- The disk has zeros from the byte `offset` of the block at `a` on, which has `n` fragments. -/
def ClearedFrom (fs : Fs) (disk : Nat → Frag) (a n offset : Nat) : Prop :=
  ∀ k < n, ∀ b < fs.fsize, offset ≤ k * fs.fsize + b → disk (a + k) b = 0

/-- The file after `truncSize`. -/
structure Sized (fs : Fs) (length : Nat) (s₀ s : State) : Prop where
  size : s.ip.size = length
  extents : Extents (addr s) (len fs s₀.ip) s.held
  entries : ∀ a i, fs.NINDIR ≤ i → s.ptrs a i = 0
  freed : s.freed = s₀.freed
  took : Took fs s₀ s
  same : ∀ x, addr s x = addr s₀ x ∨ addr s₀ x = 0 ∧ length % fs.bsize ≠ 0 ∧ first fs x ≤ length / fs.bsize ∧
    (¬x.Inner → dataSlot fs (length / fs.bsize : Nat) = some x)
  hole : s.held = s₀.held ∨ length % fs.bsize ≠ 0 ∧ dataAddr fs s₀ (length / fs.bsize : Nat) = 0
  last : length % fs.bsize ≠ 0 → ∃ x, dataSlot fs (length / fs.bsize : Nat) = some x ∧ addr s x ≠ 0 ∧
    ClearedFrom fs (vinvalbuf fs true s).disk (addr s x) (len fs s.ip x) (length % fs.bsize)

/-! ## Buffers that are written -/

theorem foldl_writeBuf_of_not_mem {l : List (Nat × Buf)} {f : Nat}
    (h : ∀ e ∈ l, e.2.blkno = -1 ∨ ¬(fs.toFsb e.2.blkno ≤ f ∧ f < fs.toFsb e.2.blkno + e.2.data.length)) (disk : Nat → Frag) :
    l.foldl (fun disk b => writeBuf fs disk b.2) disk f = disk f := by
  induction l generalizing disk with
  | nil => rfl
  | cons e l ih =>
    rw [List.foldl_cons, ih fun e he => h e (List.mem_cons_of_mem _ he)]
    rcases h e (by simp) with hhole | hout
    · rw [writeBuf, if_pos hhole]
    · unfold writeBuf
      split_ifs
      · rfl
      · exact if_neg hout

theorem writeBuf_at {b : Buf} {a k : Nat} (hblk : b.blkno = fs.toDb a) (hk : k < b.data.length) (disk : Nat → Frag) :
    writeBuf fs disk b (a + k) = b.data.getD k fun _ => 0 := by
  have hne : fs.toDb a ≠ -1 := by
    have := fs.toDb_nonneg a
    omega
  rw [writeBuf, hblk, if_neg hne, Fs.toFsb_toDb, if_pos ⟨by omega, by omega⟩, Nat.add_sub_cancel_left]

theorem clearFrom_zero {data : List Frag} {offset n k b : Nat} (hk : k < n) (hn : n ≤ data.length)
    (hoff : offset ≤ k * fs.fsize + b) (d : Frag) : ((clearFrom fs offset data).take n).getD k d b = 0 := by
  have hkd : k < data.length := by omega
  have hlt : ¬k * fs.fsize + b < offset := by omega
  rw [List.getD_eq_getElem?_getD, List.getElem?_take_of_lt hk, clearFrom, List.getElem?_mapIdx, List.getElem?_eq_getElem hkd]
  simp only [Option.map_some, Option.getD_some, if_neg hlt]

theorem lookup_of_mem {l : List (Nat × Buf)} (h : (l.map Prod.fst).Nodup) {e : Nat × Buf} (he : e ∈ l) :
    l.lookup e.1 = some e.2 := by
  induction l with
  | nil => cases he
  | cons d l ih =>
    rw [List.map_cons, List.nodup_cons] at h
    rcases List.mem_cons.1 he with rfl | he
    · obtain ⟨m, b⟩ := e
      simp
    · have hne : e.1 ≠ d.1 := fun heq => h.1 (heq ▸ List.mem_map_of_mem he)
      have hbeq : (e.1 == d.1) = false := by simpa using hne
      rw [List.lookup_cons, hbeq]
      exact ih h.2 he

theorem blksize_shorter {ip ip' : Inode} {i : Nat} (hlow : i * fs.bsize ≤ ip'.size) (hle : ip'.size ≤ ip.size) :
    blksize fs ip' i ≤ blksize fs ip i := by
  by_cases hfull : NDADDR ≤ i ∨ (i + 1) * fs.bsize ≤ ip.size
  · rw [blksize_full hfull]
    exact blksize_le ip' i
  · have hlt : ip.size < (i + 1) * fs.bsize := by omega
    rw [blksize_last (by omega) hlt, blksize_last (by omega) (by omega)]
    apply fs.fragroundup_mono
    have hmod : ∀ n, i * fs.bsize ≤ n → n < (i + 1) * fs.bsize → n % fs.bsize = n - i * fs.bsize := by
      intro n hlow hhigh
      rw [Nat.add_mul, Nat.one_mul] at hhigh
      rw [← Nat.sub_add_cancel hlow, Nat.add_mul_mod_self_right, Nat.mod_eq_of_lt (by omega)]
      omega
    rw [hmod _ hlow (by omega), hmod _ (by omega) hlt]
    omega

theorem Regular.sized (h : Regular fs s) (hoff : length % fs.bsize = 0) : Sized fs length s (setSize length s) where
  size := rfl
  extents := h.consistent.sound.extents
  entries := h.entries
  freed := rfl
  took := Took.refl fs s
  same _ := .inl rfl
  hole := .inl rfl
  last hne := absurd hoff hne

/-- The other buffers of the file do not cover the fragments of the block that is provided. -/
theorem Provided.others (h : Regular fs s₀) {lbn : Nat} (hlbn : lbn < 2 ^ 31) {b : Buf} (hp : Provided fs lbn b s₀ s) {x : Slot}
    (hx : dataSlot fs lbn = some x) (ha : addr s x ≠ 0) {f : Nat} (hf : f ∈ extent (addr s) (len fs s₀.ip) x) :
    ∀ e ∈ s.bufs.filter (·.1 ≠ lbn),
      e.2.blkno = -1 ∨ ¬(fs.toFsb e.2.blkno ≤ f ∧ f < fs.toFsb e.2.blkno + e.2.data.length) := by
  intro e he
  rw [hp.bufs, List.mem_filter] at he
  obtain ⟨hmem, hne⟩ := he
  have hne' : e.1 ≠ lbn := by simpa using hne
  obtain ⟨hsmall, hmapped⟩ := h.mapped e hmem
  obtain ⟨y, hy⟩ := Option.ne_none_iff_exists'.1 hmapped
  obtain ⟨hblk, hlen⟩ := h.consistent.sound.bufs e.1 e.2 y hsmall (lookup_of_mem h.cached hmem) hy
  by_cases hzero : addr s₀ y = 0
  · left
    rw [hblk, hzero]
    rfl
  · right
    have hsame : addr s y = addr s₀ y := by
      rcases hp.same y with hsame | ⟨hz, -⟩
      · exact hsame
      · exact absurd hz hzero
    have hyx : y ≠ x := by
      rintro rfl
      have hlbn' : (lbn : Int) < 2 ^ 31 := by exact_mod_cast hlbn
      have hsmall' : (e.1 : Int) < 2 ^ 31 := by exact_mod_cast hsmall
      exact hne' (by exact_mod_cast dataSlot_inj hsmall' hlbn' hy hx)
    have hblk' : e.2.blkno = fs.toDb (addr s y) := by rw [hblk, hsame, Fs.blkno, if_neg hzero]
    intro hin
    rw [hblk', Fs.toFsb_toDb, hlen hzero] at hin
    exact Finset.disjoint_left.1 (hp.extents.apart y x hyx (by rwa [hsame]) ha) (Finset.mem_Ico.2 hin) hf

theorem flushed_setBuf (m : Nat) (b : Buf) : (vinvalbuf fs true (setBuf m b s)).disk =
    (s.bufs.filter (·.1 ≠ m)).foldl (fun disk b => writeBuf fs disk b.2) (writeBuf fs s.disk b) := rfl

theorem setSize_bufs (n : Nat) : (setSize n s).bufs = s.bufs := rfl

/-- A buffer that is cleared from the byte `offset` on and cut to `n` fragments. -/
def clearedBuf (fs : Fs) (offset n : Nat) (b : Buf) : Buf := { b with data := (clearFrom fs offset b.data).take n }

/-- The block is cleared behind the end, and its buffer cut to its new size. -/
theorem Provided.sized (h : Regular fs s₀) (hlength : length < s₀.ip.size) (hlbn : length / fs.bsize < 2 ^ 31)
    (hoff : length % fs.bsize ≠ 0) {b : Buf} (hp : Provided fs (length / fs.bsize) b s₀ s) :
    Sized fs length s₀ (setBuf (length / fs.bsize) (clearedBuf fs (length % fs.bsize)
      (fs.numfrags (blksize fs (setSize length s).ip (length / fs.bsize))) b) (setSize length s)) where
  size := rfl
  extents := hp.extents
  entries := hp.entries
  freed := hp.freed
  took := hp.took
  same x := by
    rcases hp.same x with hsame | ⟨hzero, hfirst, hslot⟩
    · exact .inl hsame
    · exact .inr ⟨hzero, hoff, hfirst, hslot⟩
  hole := hp.hole.imp_right fun hzero => ⟨hoff, hzero⟩
  last _ := by
    obtain ⟨x, hx, ha, hblk, hdata⟩ := hp.slot
    have hshorter : len fs (setSize length s).ip x ≤ len fs s₀.ip x := by
      rw [len_dataSlot _ hlbn hx, len_dataSlot _ hlbn hx]
      exact fs.numfrags_mono (blksize_shorter (Nat.div_mul_le_self _ _) hlength.le)
    refine ⟨x, hx, ha, fun k hk j hj hbyte => ?_⟩
    have hk' : k < len fs (setSize length s).ip x := hk
    have hf : addr s x + k ∈ extent (addr s) (len fs s₀.ip) x := Finset.mem_Ico.2 ⟨by omega, by omega⟩
    have hothers := hp.others h hlbn hx ha hf
    have hlen : (clearFrom fs (length % fs.bsize) b.data).length = b.data.length := by simp [clearFrom]
    rw [len_dataSlot _ hlbn hx] at hk' hshorter
    rw [flushed_setBuf, setSize_bufs, addr_setBuf, addr_setSize, foldl_writeBuf_of_not_mem hothers]
    have hcleared : k < (clearedBuf fs (length % fs.bsize)
        (fs.numfrags (blksize fs (setSize length s).ip (length / fs.bsize))) b).data.length := by
      rw [clearedBuf, List.length_take, hlen]
      omega
    rw [writeBuf_at (b := clearedBuf fs _ _ b) hblk hcleared]
    exact clearFrom_zero hk' (by rw [hdata]; exact hshorter) hbyte _

/-- The file gets its new size, or there is no room for the block in which it ends. -/
theorem truncSize_spec (h : Regular fs s) (hread : Reads env) (hlength : length < s.ip.size) (hlt : length < 2 ^ 32) :
    (truncSize fs env length).wp (fun _ s' => Sized fs length s s')
      (fun e _ => e.NoRoom ∧ length % fs.bsize ≠ 0 ∧ dataAddr fs s (length / fs.bsize : Nat) = 0) s := by
  obtain ⟨c, hc⟩ : ∃ c, c = balloc fs env (length / fs.bsize : Nat) (length % fs.bsize) true := ⟨_, rfl⟩
  unfold truncSize
  dsimp only
  rw [← hc, wp_ite]
  refine ⟨fun hoff => h.sized hoff, fun hoff => ?_⟩
  rw [wp_bind]
  apply wp_mono (balloc_within h.consistent h.entries hread hlength hlt hc)
  swap
  · exact fun e _ he => ⟨he.1, hoff, he.2⟩
  rintro b s' hp
  simp only [wp_bind, wp_modify, wp_get]
  have hlbn : length / fs.bsize < 2 ^ 31 := by
    apply Nat.div_lt_of_lt_mul
    have := fs.bsize_bounds
    omega
  exact hp.sized h hlength hlbn hoff

end BsdKernel.UfsTrunc
