import BsdKernel.Ufs.BmapTree
/-!
# The pieces of a file

What holds of a file between two calls (`Consistent`): the pieces of its blocks are
apart, the last direct block ends where `i_size` says, and a cached buffer has the
address and the length of its block. Then what `alloc` and the calls of the buffer
cache do to such a file.
-/

namespace BsdKernel.UfsBmap

open BsdKernel.Lib

variable {fs : Fs} {env : Env} {s s' : State}
variable {m n i : Nat} {ip : Inode} {x : Slot}

/-! ## Sizes -/

theorem Fs.fsize_dvd (fs : Fs) : fs.fsize ∣ fs.bsize := by
  rcases fs.frags with h | h | h | h <;> rw [h] <;> simp

theorem Fs.bsize_pos (fs : Fs) : 0 < fs.bsize := by
  have := fs.bsize_bounds
  omega

@[simp] theorem Fs.numfrags_mul (fs : Fs) (k : Nat) : fs.numfrags (k * fs.fsize) = k :=
  Nat.mul_div_cancel _ fs.fsize_pos

theorem Fs.numfrags_mono (fs : Fs) (h : m ≤ n) : fs.numfrags m ≤ fs.numfrags n := Nat.div_le_div_right h

theorem Fs.numfrags_sub (fs : Fs) (hm : fs.fsize ∣ m) (hn : fs.fsize ∣ n) :
    fs.numfrags (n - m) = fs.numfrags n - fs.numfrags m := by
  obtain ⟨a, rfl⟩ := hm
  obtain ⟨b, rfl⟩ := hn
  rw [← Nat.mul_sub, Nat.mul_comm, Nat.mul_comm _ a, Nat.mul_comm _ b]
  simp

theorem Fs.numfrags_pos (fs : Fs) (h : fs.fsize ≤ n) : 0 < fs.numfrags n := Nat.div_pos h fs.fsize_pos

theorem Fs.dvd_fragroundup (fs : Fs) (n : Nat) : fs.fsize ∣ fs.fragroundup n := Nat.dvd_mul_left _ _

theorem Fs.le_fragroundup (fs : Fs) (n : Nat) : n ≤ fs.fragroundup n := by
  have hpos := fs.fsize_pos
  have := Nat.div_add_mod (n + fs.fsize - 1) fs.fsize
  have := Nat.mod_lt (n + fs.fsize - 1) hpos
  unfold Fs.fragroundup
  rw [Nat.mul_comm]
  omega

theorem Fs.fragroundup_mono (fs : Fs) (h : m ≤ n) : fs.fragroundup m ≤ fs.fragroundup n :=
  Nat.mul_le_mul_right _ (Nat.div_le_div_right (by omega))

theorem Fs.fragroundup_dvd (fs : Fs) (h : fs.fsize ∣ n) : fs.fragroundup n = n := by
  obtain ⟨k, rfl⟩ := h
  have hpos := fs.fsize_pos
  unfold Fs.fragroundup
  have : (fs.fsize * k + fs.fsize - 1) / fs.fsize = k := by
    rw [show fs.fsize * k + fs.fsize - 1 = fs.fsize - 1 + fs.fsize * k by omega, Nat.add_mul_div_left _ _ hpos,
      Nat.div_eq_of_lt (by omega), Nat.zero_add]
  rw [this, Nat.mul_comm]

theorem Fs.fragroundup_le (fs : Fs) (h : n ≤ fs.bsize) : fs.fragroundup n ≤ fs.bsize := by
  have := fs.fragroundup_mono h
  rwa [fs.fragroundup_dvd fs.fsize_dvd] at this

theorem blksize_dvd (ip : Inode) (i : Nat) : fs.fsize ∣ blksize fs ip i := by
  unfold blksize
  split
  · exact fs.fsize_dvd
  · exact fs.dvd_fragroundup _

theorem blksize_le (ip : Inode) (i : Nat) : blksize fs ip i ≤ fs.bsize := by
  unfold blksize
  split
  · exact le_rfl
  · exact fs.fragroundup_le (Nat.mod_lt _ fs.bsize_pos).le

theorem blksize_full (h : NDADDR ≤ i ∨ (i + 1) * fs.bsize ≤ ip.size) : blksize fs ip i = fs.bsize :=
  if_pos h

/-- The block in which the file ends. -/
theorem blksize_last (hi : i < NDADDR) (h : ip.size < (i + 1) * fs.bsize) :
    blksize fs ip i = fs.fragroundup (ip.size % fs.bsize) :=
  if_neg (by omega)

/-- A block of which some byte is in the file has a fragment. -/
theorem blksize_pos (h : i * fs.bsize < ip.size) : fs.fsize ≤ blksize fs ip i := by
  have hb := fs.bsize_pos
  by_cases hfull : NDADDR ≤ i ∨ (i + 1) * fs.bsize ≤ ip.size
  · rw [blksize_full hfull]
    exact Nat.le_of_dvd hb fs.fsize_dvd
  · rw [blksize_last (by omega) (by omega)]
    have hmod : ip.size % fs.bsize = ip.size - i * fs.bsize := by
      have : ip.size = ip.size - i * fs.bsize + i * fs.bsize := by omega
      rw [this, Nat.add_mul_mod_self_right, Nat.mod_eq_of_lt]
      · omega
      · rw [Nat.add_mul] at hfull
        omega
    have hle := fs.le_fragroundup (ip.size % fs.bsize)
    obtain ⟨k, hk⟩ := fs.dvd_fragroundup (ip.size % fs.bsize)
    rw [hk] at hle ⊢
    have : 0 < k := by
      rcases Nat.eq_zero_or_pos k with rfl | hk
      · omega
      · exact hk
    exact Nat.le_mul_of_pos_right _ this

theorem Fs.toDb_nonneg (fs : Fs) (a : Nat) : 0 ≤ fs.toDb a := by
  have : fs.toDb a = (a * 2 ^ fs.fsbtodb : Nat) := by
    push_cast
    rfl
  omega

@[simp] theorem Fs.toFsb_toDb (fs : Fs) (a : Nat) : fs.toFsb (fs.toDb a) = a := by
  have : fs.toDb a = (a * 2 ^ fs.fsbtodb : Nat) := by
    push_cast
    rfl
  have hpow : (2 : Int) ^ fs.fsbtodb = (2 ^ fs.fsbtodb : Nat) := by
    push_cast
    rfl
  rw [Fs.toFsb, this, hpow, ← Int.natCast_div, Nat.mul_div_cancel _ (Nat.two_pow_pos _), Int.toNat_natCast]

/-! ## Consistent files -/

/-- The pieces are apart and handed out, with the lengths `L`; a block that has an address has a fragment; and the
buffers have the addresses and lengths of their blocks. -/
structure Sound (fs : Fs) (L : Slot → Nat) (s : State) : Prop where
  extents : Extents (addr s) L s.held
  pos : ∀ x, addr s x ≠ 0 → 0 < L x
  bufs : ∀ (m : Nat) b x, m < 2 ^ 31 → incore s m = some b → dataSlot fs m = some x →
    b.blkno = fs.blkno (addr s x) ∧ (addr s x ≠ 0 → b.data.length = L x)

/-- The file ends in an allocated block or between two blocks, and has no direct block behind its end. -/
structure Shape (fs : Fs) (ip : Inode) : Prop where
  beyond : ∀ i < NDADDR, ip.size ≤ i * fs.bsize → ip.db i = 0
  last : ∀ i < NDADDR, ip.size / fs.bsize = i → ip.size % fs.bsize ≠ 0 → ip.db i ≠ 0
  bound : ip.size / fs.bsize < 2 ^ 31

structure Consistent (fs : Fs) (s : State) : Prop where
  sound : Sound fs (len fs s.ip) s
  shape : Shape fs s.ip

/-- What a read of the block returns. -/
def contents (fs : Fs) (s : State) (m : Nat) : List Frag :=
  match incore s m with
  | some b => b.data
  | none => (strategy fs s m (fs.numfrags (blksize fs s.ip m))).data

@[simp] theorem take_ptrs (new : Finset Nat) (size : Nat) : (take new size s).ptrs = s.ptrs := rfl
@[simp] theorem take_db (new : Finset Nat) (size : Nat) : (take new size s).ip.db = s.ip.db := rfl
@[simp] theorem take_ib (new : Finset Nat) (size : Nat) : (take new size s).ip.ib = s.ip.ib := rfl
@[simp] theorem take_size (new : Finset Nat) (size : Nat) : (take new size s).ip.size = s.ip.size := rfl
@[simp] theorem take_bufs (new : Finset Nat) (size : Nat) : (take new size s).bufs = s.bufs := rfl
@[simp] theorem take_disk (new : Finset Nat) (size : Nat) : (take new size s).disk = s.disk := rfl
@[simp] theorem take_held (new : Finset Nat) (size : Nat) : (take new size s).held = s.held ∪ new := rfl
@[simp] theorem take_freed (new : Finset Nat) (size : Nat) : (take new size s).freed = s.freed := rfl

/-! ## Buffers -/

theorem incore_setBuf (m k : Nat) (b : Buf) : incore (setBuf m b s) k = if k = m then some b else incore s k := by
  unfold incore setBuf
  by_cases hk : k = m
  · simp [hk]
  · have hne : (k == m) = false := by
      simpa using hk
    simp only [List.lookup_cons, hne, hk, if_false]
    induction s.bufs with
    | nil => rfl
    | cons e l ih =>
      obtain ⟨j, c⟩ := e
      simp only [ne_eq, decide_not] at ih
      by_cases hj : j = m
      · subst hj
        simp [List.lookup_cons, hne, ih]
      · by_cases hkj : k = j
        · subst hkj
          simp [hj]
        · have hne' : (k == j) = false := by
            simpa using hkj
          simp [hj, List.lookup_cons, hne', ih]

theorem setBuf_setBuf (m : Nat) (b b' : Buf) : setBuf m b (setBuf m b' s) = setBuf m b s := by
  simp [setBuf, List.filter_filter]

@[simp] theorem setBuf_ip (m : Nat) (b : Buf) : (setBuf m b s).ip = s.ip := rfl
@[simp] theorem setBuf_ptrs (m : Nat) (b : Buf) : (setBuf m b s).ptrs = s.ptrs := rfl
@[simp] theorem setBuf_disk (m : Nat) (b : Buf) : (setBuf m b s).disk = s.disk := rfl
@[simp] theorem setBuf_held (m : Nat) (b : Buf) : (setBuf m b s).held = s.held := rfl

theorem zeros_length (n : Nat) : (zeros n).length = n := List.length_replicate

theorem allocbuf_length (b : Buf) (n : Nat) : (allocbuf env b n).data.length = n := by
  simp only [allocbuf, List.length_append, List.length_take, List.length_map, List.length_range]
  omega

/-- `getblk` puts a buffer of the right size in the cache, with what the cached one had. -/
theorem getblk_eq (env : Env) (lbn n : Nat) :
    ∃ b, getblk env lbn n s = (.ok b, setBuf lbn b s) ∧ b.data.length = n ∧
      ∀ c, incore s lbn = some c → b.blkno = c.blkno ∧ (c.data.length = n → b = c) := by
  cases hc : incore s lbn with
  | none =>
    refine ⟨⟨lbn, (List.range n).map env.junk⟩, ?_, by simp, by simp⟩
    simp only [getblk, bind, Cmd.andThen, Cmd.get, Cmd.modify, hc]
    rfl
  | some c =>
    by_cases hn : c.data.length = n
    · refine ⟨c, ?_, hn, by simp⟩
      simp only [getblk, bind, Cmd.andThen, Cmd.get, Cmd.modify, hc, hn, ne_eq, not_true_eq_false, if_false]
      rfl
    · refine ⟨allocbuf env c n, ?_, allocbuf_length c n, ?_⟩
      · simp only [getblk, bind, Cmd.andThen, Cmd.get, Cmd.modify, hc, ne_eq, hn, not_false_eq_true, if_true]
        rfl
      · rintro d hd
        cases hd
        exact ⟨rfl, fun h => absurd h hn⟩

theorem strategy_eq (hm : m < 2 ^ 31) (hx : dataSlot fs m = some x) :
    strategy fs s m n =
      if addr s x = 0 then ⟨-1, zeros n⟩ else ⟨fs.toDb (addr s x), diskRead fs s (fs.toDb (addr s x)) n⟩ := by
  have hbm : bmap fs (fun _ => true) s m = _ := bmap_eq (by exact_mod_cast hm)
  rw [hx] at hbm
  simp only [reduceCtorEq, if_false, dataAddr, hx] at hbm
  unfold strategy
  rw [hbm]
  by_cases h0 : addr s x = 0
  · simp [h0, Fs.blkno]
  · have hne : fs.toDb (addr s x) ≠ -1 := by
      have := fs.toDb_nonneg (addr s x)
      omega
    simp [h0, Fs.blkno, hne]

theorem len_dataSlot (ip : Inode) (hm : m < 2 ^ 31) (hx : dataSlot fs m = some x) :
    len fs ip x = fs.numfrags (blksize fs ip m) := by
  rcases dataSlot_cases (by exact_mod_cast hm) hx with ⟨i, hi, hbn, rfl⟩ | ⟨l, -, k, -, hbn, -, -, rfl⟩
  · rw [show m = i by omega]
    rfl
  · rw [blksize_full (Or.inl (by omega))]
    rfl

@[simp] theorem contents_setBuf_self (m : Nat) (b : Buf) : contents fs (setBuf m b s) m = b.data := by
  simp [contents, incore_setBuf]

/-- A block that has an address is read with that address and its contents. -/
theorem bread_spec (h : Sound fs (len fs s.ip) s) (hm : m < 2 ^ 31) (hx : dataSlot fs m = some x) (ha : addr s x ≠ 0) :
    (bread fs env m (blksize fs s.ip m)).wp
      (fun b s' => s' = setBuf m b s ∧ b.blkno = fs.toDb (addr s x) ∧ b.data = contents fs s m ∧
        b.data.length = len fs s.ip x)
      (fun e s' => e = .error .eio ∧ s' = s) s := by
  have hblk : fs.blkno (addr s x) = fs.toDb (addr s x) := by
    simp [Fs.blkno, ha]
  simp only [bread, wp_bind, wp_get, ← len_dataSlot s.ip hm hx]
  cases hc : incore s m with
  | some c =>
    obtain ⟨hcb, hcl⟩ := h.bufs m c x hm hc hx
    obtain ⟨b, hb, hlen, hold⟩ := getblk_eq env (s := s) m (len fs s.ip x)
    obtain rfl := (hold c hc).2 (hcl ha)
    simp only [Cmd.wp, hb]
    refine ⟨trivial, hcb.trans hblk, ?_, hlen⟩
    simp [contents, hc]
  | none =>
    simp only [wp_ite, wp_bind, wp_modify, wp_pure, wp_fail]
    refine ⟨fun _ => ⟨trivial, ?_, ?_, ?_⟩, fun _ => ⟨trivial, trivial⟩⟩
    · simp [strategy_eq hm hx, ha]
    · simp [contents, hc, len_dataSlot _ hm hx]
    · simp [strategy_eq hm hx, ha, diskRead]

/-! ## `alloc` -/

/-- There is no room: the reserve, the quota or the free map says so. -/
def Stop.NoRoom (e : Stop) : Prop := e = .error .enospc ∨ e = .error .edquot

theorem alloc_spec {size : Nat} (hsize : size ≤ fs.bsize) (hdvd : fs.fsize ∣ size) :
    (alloc fs env size).wp
      (fun a s' => a ≠ 0 ∧ Disjoint (piece fs a size) s.held ∧ s' = take (piece fs a size) size s)
      (fun e s' => e.NoRoom ∧ s' = s) s := by
  simp only [alloc, wp_bind, wp_get, wp_ite, wp_fail]
  refine ⟨fun hbad => absurd hbad (by omega), fun _ => ⟨fun _ => ⟨.inl rfl, trivial⟩, fun _ =>
    ⟨fun _ => ⟨.inr rfl, trivial⟩, fun _ => ?_⟩⟩⟩
  cases hh : env.hashalloc s.held (fs.numfrags size) with
  | none => exact ⟨.inl rfl, rfl⟩
  | some a =>
    obtain ⟨ha, hfree⟩ := env.hashalloc_free _ _ _ hh
    simp only [wp_bind, wp_modify, wp_pure]
    exact ⟨ha, hfree, trivial⟩

theorem direct_slot (hi : i < NDADDR) : dataSlot fs i = some (.direct i) := by
  have hlt : ((i : Nat) : Int) < NDADDR := by
    exact_mod_cast hi
  have hneg : ¬((i : Nat) : Int) < 0 := by
    omega
  rw [dataSlot, if_neg hneg, if_pos hlt, Int.toNat_natCast]

theorem addr_direct (hi : i < NDADDR) : addr s (.direct i) = s.ip.db i := if_pos hi

end BsdKernel.UfsBmap
