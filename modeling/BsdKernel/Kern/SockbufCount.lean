import BsdKernel.Kern.Sockbuf
import Mathlib.Tactic
/-!
# The counters of a socket buffer

`sb_cc` and `sb_mbcnt` are the sums of `m_len` and of the storage of the mbufs
on the queue: `sockbuf_counts`, over every run of the operations on a buffer
that starts empty. `Counted` is the invariant. The counters of a queue are those
of `sballoc` on each of its mbufs, and each loop of the operations keeps this
with any counters in place of zero.
-/

namespace BsdKernel.Socket

open BsdKernel.Lib

/-- What the mbufs of a chain add to `sb_mbcnt`. -/
def chainStorage (m : List Mbuf) : Nat := (m.map (·.storage)).sum

section Chains
variable (c : Counters) (m n : Mbuf) (ms ns : List Mbuf)

@[simp] theorem chainLen_nil : chainLen [] = 0 := rfl

@[simp] theorem chainLen_cons : chainLen (m :: ms) = m.len + chainLen ms := by simp [chainLen]

@[simp] theorem chainLen_append : chainLen (ms ++ ns) = chainLen ms + chainLen ns := by simp [chainLen]

@[simp] theorem chainLen_reverse : chainLen ms.reverse = chainLen ms := by simp [chainLen, List.sum_reverse]

@[simp] theorem chainStorage_nil : chainStorage [] = 0 := rfl

@[simp] theorem chainStorage_cons : chainStorage (m :: ms) = m.storage + chainStorage ms := by simp [chainStorage]

@[simp] theorem chainStorage_append : chainStorage (ms ++ ns) = chainStorage ms + chainStorage ns := by
  simp [chainStorage]

@[simp] theorem chainStorage_reverse : chainStorage ms.reverse = chainStorage ms := by
  simp [chainStorage, List.sum_reverse]

theorem storage_pos : 0 < m.storage := by
  unfold Mbuf.storage MSIZE
  omega

theorem sballocChain_eq : sballocChain c ms = ⟨c.cc + chainLen ms, c.mbcnt + chainStorage ms⟩ := by
  unfold sballocChain
  induction ms generalizing c with
  | nil => simp
  | cons m ms ih =>
    rw [List.foldl_cons, ih]
    simp only [sballoc, chainLen_cons, chainStorage_cons, Nat.cast_add, Int.add_assoc]

@[simp] theorem sballocChain_cc : (sballocChain c ms).cc = c.cc + chainLen ms := by rw [sballocChain_eq]

@[simp] theorem sballocChain_mbcnt : (sballocChain c ms).mbcnt = c.mbcnt + chainStorage ms := by rw [sballocChain_eq]

@[simp] theorem sballoc_cc : (sballoc c m).cc = c.cc + m.len := rfl

@[simp] theorem sballoc_mbcnt : (sballoc c m).mbcnt = c.mbcnt + m.storage := rfl

@[simp] theorem sbfree_cc : (sbfree c m).cc = c.cc - m.len := rfl

@[simp] theorem sbfree_mbcnt : (sbfree c m).mbcnt = c.mbcnt - m.storage := rfl

theorem sbfree_sballocChain : sbfree (sballocChain c (m :: ms)) m = sballocChain c ms := by
  ext
  · simp only [sbfree_cc, sballocChain_cc, chainLen_cons, Nat.cast_add]
    omega
  · simp only [sbfree_mbcnt, sballocChain_mbcnt, chainStorage_cons, Nat.cast_add]
    omega

theorem sbfreeChain_sballocChain : sbfreeChain (sballocChain c (ms ++ ns)) ms = sballocChain c ns := by
  unfold sbfreeChain
  induction ms with
  | nil => rfl
  | cons m ms ih => rw [List.cons_append, List.foldl_cons, sbfree_sballocChain, ih]
end Chains

/-! ## Appending -/

@[simp] theorem setEor_len (e : Bool) (front : List Mbuf) : chainLen (setEor e front) = chainLen front := by
  cases front <;> simp [setEor, Mbuf.len]

@[simp] theorem setEor_storage (e : Bool) (front : List Mbuf) : chainStorage (setEor e front) = chainStorage front := by
  cases front <;> simp [setEor, Mbuf.storage]

theorem place_counters (b : Counters) (m : Mbuf) (front : List Mbuf) :
    (place (sballocChain b front) m front).1 = sballocChain b (place (sballocChain b front) m front).2 := by
  have link : ∀ front, sballoc (sballocChain b front) m = sballocChain b ({ m with eor := false } :: front) := by
    intro front
    ext
    · simp only [sballoc_cc, sballocChain_cc, chainLen_cons, Mbuf.len, Nat.cast_add]
      omega
    · simp only [sballoc_mbcnt, sballocChain_mbcnt, chainStorage_cons, Mbuf.storage, Nat.cast_add]
      omega
  cases front with
  | nil => exact link []
  | cons n front =>
    rw [place]
    split
    · ext
      · simp only [sballocChain_cc, chainLen_cons, Mbuf.len, List.length_append, Nat.cast_add]
        omega
      · simp only [sballocChain_mbcnt, chainStorage_cons, Mbuf.storage, Nat.cast_add]
    · exact link (n :: front)

theorem place_ne_nil (c : Counters) (m : Mbuf) (front : List Mbuf) : (place c m front).2 ≠ [] := by
  cases front with
  | nil => simp [place]
  | cons n front =>
    rw [place]
    split <;> simp

theorem compressLoop_counters (b : Counters) (front : List Mbuf) (eor : Bool) (ms : List Mbuf) :
    (compressLoop (sballocChain b front) front eor ms).1 =
      sballocChain b (compressLoop (sballocChain b front) front eor ms).2 := by
  induction ms generalizing front eor with
  | nil => ext <;> simp [compressLoop]
  | cons m ms ih =>
    rw [compressLoop]
    split
    · exact ih _ _
    · rw [place_counters]
      exact ih _ _

theorem compressLoop_ne_nil (c : Counters) (front : List Mbuf) (eor : Bool) (ms : List Mbuf) (h : front ≠ []) :
    (compressLoop c front eor ms).2 ≠ [] := by
  induction ms generalizing c front eor with
  | nil =>
    cases front with
    | nil => exact absurd rfl h
    | cons n front => simp [compressLoop, setEor]
  | cons m ms ih =>
    rw [compressLoop]
    split
    · exact ih _ _ _ h
    · exact ih _ _ _ (place_ne_nil c m front)

theorem sballocChain_reverse (c : Counters) (ms : List Mbuf) : sballocChain c ms.reverse = sballocChain c ms := by
  ext <;> simp

theorem sbcompress_counters (b : Counters) (rec m : List Mbuf) :
    (sbcompress (sballocChain b rec) rec m).1 = sballocChain b (sbcompress (sballocChain b rec) rec m).2 := by
  unfold sbcompress
  rw [← sballocChain_reverse b rec]
  exact compressLoop_counters b rec.reverse false m

theorem sbcompress_ne_nil (c : Counters) (rec m : List Mbuf) (h : rec ≠ []) : (sbcompress c rec m).2 ≠ [] :=
  compressLoop_ne_nil c rec.reverse false m (by simpa using h)

theorem startRecord_counters (b : Counters) (m0 : Mbuf) (m : List Mbuf) :
    (startRecord b m0 m).1 = sballocChain b (startRecord b m0 m).2 ∧ (startRecord b m0 m).2 ≠ [] := by
  have one : ∀ n : Mbuf, n.len = m0.len → n.storage = m0.storage → ∀ ms,
      (sbcompress (sballoc b m0) [n] ms).1 = sballocChain b (sbcompress (sballoc b m0) [n] ms).2 := by
    intro n hl hs ms
    have hc : sballoc b m0 = sballocChain b [n] := by ext <;> simp [hl, hs]
    rw [hc]
    exact sbcompress_counters b [n] ms
  cases m with
  | nil => exact ⟨one m0 rfl rfl _, sbcompress_ne_nil _ _ _ (by simp)⟩
  | cons m ms =>
    rw [startRecord]
    split
    · exact ⟨one { m0 with eor := false } rfl rfl _, sbcompress_ne_nil _ _ _ (by simp)⟩
    · exact ⟨one m0 rfl rfl _, sbcompress_ne_nil _ _ _ (by simp)⟩

/-! ## Dropping -/

/-- The first loop inside one record drops bytes from its front until none are
left to drop, or no mbuf is. -/
theorem dropMbufs_spec (b : Counters) (len : Nat) (ms tail : List Mbuf) :
    ∃ len' ms', dropMbufs (sballocChain b (ms ++ tail)) len ms = (sballocChain b (ms' ++ tail), len', ms') ∧
      chainLen ms + len' = chainLen ms' + len ∧ (len' = 0 ∨ ms' = []) := by
  induction ms generalizing len with
  | nil => exact ⟨len, [], rfl, rfl, .inr rfl⟩
  | cons m ms ih =>
    rw [dropMbufs]
    split
    · rename_i h0
      exact ⟨0, m :: ms, rfl, by rw [h0], .inl rfl⟩
    · split
      · rename_i hgt
        refine ⟨0, _, Prod.ext ?_ rfl, ?_, .inl rfl⟩
        · ext
          · simp only [sballocChain_cc, List.cons_append, chainLen_cons, Mbuf.len, List.length_drop, Nat.cast_add]
            unfold Mbuf.len at hgt
            omega
          · simp only [sballocChain_mbcnt, List.cons_append, chainStorage_cons, Mbuf.storage]
        · simp only [chainLen_cons, Mbuf.len, List.length_drop] at hgt ⊢
          omega
      · obtain ⟨len', ms', he, hl, hor⟩ := ih (len - m.len)
        rw [List.cons_append, sbfree_sballocChain, he]
        refine ⟨len', ms', rfl, ?_, hor⟩
        rw [chainLen_cons]
        omega

/-- The whole first loop finds the bytes to drop, and leaves the records behind
the one it stops in as they are. -/
theorem dropLoop_spec (b : Counters) (len : Nat) (m : List Mbuf) (next : List (List Mbuf))
    (h : len ≤ chainLen (m ++ next.flatten)) :
    ∃ m' next', dropLoop (sballocChain b (m ++ next.flatten)) len m next =
        some (sballocChain b (m' ++ next'.flatten), m', next') ∧
      chainLen (m ++ next.flatten) = chainLen (m' ++ next'.flatten) + len ∧ next' <:+ next := by
  induction next generalizing len m with
  | nil =>
    obtain ⟨len', m', he, hl, hor⟩ := dropMbufs_spec b len m [].flatten
    simp only [List.flatten_nil, List.append_nil] at h hl he ⊢
    have h0 : len' = 0 := by
      rcases hor with h0 | rfl
      · exact h0
      · rw [chainLen_nil] at hl
        omega
    refine ⟨m', [], ?_, by simpa [h0] using hl, List.suffix_refl _⟩
    rw [dropLoop, he]
    simp [h0]
  | cons rec next ih =>
    obtain ⟨len', m', he, hl, hor⟩ := dropMbufs_spec b len m (rec :: next).flatten
    rw [dropLoop, he]
    by_cases h0 : len' = 0
    · refine ⟨m', rec :: next, by simp [h0], ?_, List.suffix_refl _⟩
      rw [chainLen_append, chainLen_append]
      omega
    · obtain rfl : m' = [] := hor.resolve_left h0
      simp only [chainLen_append, chainLen_nil, List.flatten_cons] at h hl
      obtain ⟨m'', next'', he', hl', hsuf⟩ := ih len' rec (by rw [chainLen_append]; omega)
      refine ⟨m'', next'', by simp [h0, he'], ?_, hsuf.trans (List.suffix_cons rec next)⟩
      rw [List.flatten_cons, chainLen_append, hl']
      omega

theorem freeEmpty_spec (b : Counters) (ms tail : List Mbuf) :
    ∃ ms', freeEmpty (sballocChain b (ms ++ tail)) ms = (sballocChain b (ms' ++ tail), ms') ∧
      chainLen ms' = chainLen ms ∧ (chainLen ms = 0 → ms' = []) := by
  induction ms with
  | nil => exact ⟨[], rfl, rfl, fun _ => rfl⟩
  | cons m ms ih =>
    rw [freeEmpty]
    split
    · rename_i h0
      obtain ⟨ms', he, hl, hnil⟩ := ih
      rw [List.cons_append, sbfree_sballocChain, he]
      exact ⟨ms', rfl, by rw [hl, chainLen_cons, h0, Nat.zero_add],
        fun h => hnil (by rw [chainLen_cons] at h; omega)⟩
    · rename_i h0
      exact ⟨m :: ms, rfl, rfl, fun h => absurd h (by rw [chainLen_cons]; omega)⟩

/-! ## The invariant -/

/-- The mbufs on the queue. -/
def Sockbuf.mbufs (sb : Sockbuf) : List Mbuf := sb.recs.flatten

structure Counted (sb : Sockbuf) : Prop where
  counters : sb.toCounters = sballocChain ⟨0, 0⟩ sb.mbufs
  /-- A record is linked to the queue by its first mbuf. -/
  ne_nil : ∀ rec ∈ sb.recs, rec ≠ []
  unlocked : sb.locked = false

theorem Counted.cc {sb : Sockbuf} (h : Counted sb) : sb.cc = chainLen sb.mbufs := by
  rw [h.counters]
  simp

theorem Counted.mbcnt {sb : Sockbuf} (h : Counted sb) : sb.mbcnt = chainStorage sb.mbufs := by
  rw [h.counters]
  simp

theorem Counted.mbcnt_eq_zero {sb : Sockbuf} (h : Counted sb) : sb.mbcnt = 0 ↔ sb.recs = [] := by
  rw [h.mbcnt, Sockbuf.mbufs]
  constructor
  · intro h0
    rcases he : sb.recs with - | ⟨rec, next⟩
    · rfl
    · have hne := h.ne_nil rec (by simp [he])
      obtain ⟨m, ms, rfl⟩ := List.exists_cons_of_ne_nil hne
      rw [he] at h0
      simp only [List.flatten_cons, List.cons_append, chainStorage_cons] at h0
      have := storage_pos m
      omega
  · intro h0
    simp [h0]

theorem queueOf_flatten (m : List Mbuf) : (queueOf m).flatten = m := by
  cases m <;> simp [queueOf]

theorem queueOf_ne_nil {m rec : List Mbuf} (h : rec ∈ queueOf m) : rec ≠ [] := by
  cases m with
  | nil => simp [queueOf] at h
  | cons m ms =>
    rw [queueOf, List.mem_singleton] at h
    simp [h]

theorem sballocChain_congr {b : Counters} {ms ns : List Mbuf} (h : chainLen ms = chainLen ns)
    (h' : chainStorage ms = chainStorage ns) : sballocChain b ms = sballocChain b ns := by
  rw [sballocChain_eq, sballocChain_eq, h, h']

theorem sballocChain_append (b : Counters) (ms ns : List Mbuf) :
    sballocChain (sballocChain b ms) ns = sballocChain b (ms ++ ns) := by
  simp [sballocChain, List.foldl_append]

theorem Counted.insert {sb : Sockbuf} (h : Counted sb) {front back : List (List Mbuf)} (hr : sb.recs = front ++ back)
    {c : Counters} {rec : List Mbuf} (hc : c = sballocChain sb.toCounters rec) (hne : rec ≠ []) :
    Counted { sb with toCounters := c, recs := front ++ rec :: back } := by
  refine ⟨?_, ?_, h.unlocked⟩
  · rw [hc, h.counters, sballocChain_append, Sockbuf.mbufs, Sockbuf.mbufs, hr]
    apply sballocChain_congr <;> simp <;> omega
  · intro r hmem
    rcases List.mem_append.1 hmem with hf | hb
    · exact h.ne_nil r (by simp [hr, hf])
    · rcases List.mem_cons.1 hb with rfl | hb
      · exact hne
      · exact h.ne_nil r (by simp [hr, hb])

theorem Counted.appendrecord {sb : Sockbuf} (h : Counted sb) (m : List Mbuf) : Counted (sbappendrecord sb m) := by
  cases m with
  | nil => exact h
  | cons m0 m =>
    obtain ⟨hc, hne⟩ := startRecord_counters sb.toCounters m0 m
    exact h.insert (by simp) hc hne

theorem Counted.insertoob {sb : Sockbuf} (h : Counted sb) (m : List Mbuf) : Counted (sbinsertoob sb m) := by
  cases m with
  | nil => exact h
  | cons m0 m =>
    obtain ⟨hc, hne⟩ := startRecord_counters sb.toCounters m0 m
    exact h.insert List.takeWhile_append_dropWhile.symm hc hne

theorem Counted.append {sb : Sockbuf} (h : Counted sb) (m : List Mbuf) : Counted (sbappend sb m) := by
  unfold sbappend
  split
  · exact h
  · split
    · rename_i hnone
      have hnil : sb.recs = [] := List.getLast?_eq_none_iff.1 hnone
      have hc : sb.toCounters = sballocChain sb.toCounters [] := rfl
      have hcount := sbcompress_counters sb.toCounters [] m
      refine ⟨?_, fun r hr => queueOf_ne_nil hr, h.unlocked⟩
      rw [Sockbuf.mbufs, queueOf_flatten]
      simp only
      rw [hc, hcount, ← hc, h.counters, Sockbuf.mbufs, hnil]
      rfl
    · rename_i last hlast
      split
      · exact h.appendrecord m
      · obtain ⟨front, hr⟩ := List.getLast?_eq_some_iff.1 hlast
        have hbase : sb.toCounters = sballocChain (sballocChain ⟨0, 0⟩ front.flatten) last := by
          rw [sballocChain_append, h.counters, Sockbuf.mbufs, hr]
          simp
        have hcount := sbcompress_counters (sballocChain ⟨0, 0⟩ front.flatten) last m
        refine ⟨?_, ?_, h.unlocked⟩
        · simp only [Sockbuf.mbufs, hr, List.dropLast_concat, List.flatten_append, List.flatten_cons, List.flatten_nil,
            List.append_nil]
          rw [hbase, hcount, sballocChain_append]
        · intro r hmem
          simp only [hr, List.dropLast_concat, List.mem_append, List.mem_singleton] at hmem
          rcases hmem with hf | rfl
          · exact h.ne_nil r (by simp [hr, hf])
          · exact sbcompress_ne_nil _ _ _ (h.ne_nil last (by simp [hr]))

theorem Counted.enqueue {sb : Sockbuf} (h : Counted sb) {rec : List Mbuf} (hne : rec ≠ []) :
    Counted (enqueue sb rec) := h.insert (by simp) rfl hne

theorem Counted.appendaddr {sb sb' : Sockbuf} (h : Counted sb) {asa : List Byte} {m0 control : List Mbuf}
    {mget ret : Bool} (hs : sbappendaddr sb asa m0 control mget = some (sb', ret)) : Counted sb' := by
  unfold sbappendaddr at hs
  split at hs
  · cases hs
  · simp only at hs
    split at hs
    · cases hs
      exact h
    · split at hs
      · cases hs
        exact h
      · split at hs
        · cases hs
          exact h.enqueue (by simp)
        · cases hs
          exact h

theorem Counted.appendcontrol {sb sb' : Sockbuf} (h : Counted sb) {m0 control : List Mbuf} {ret : Bool}
    (hs : sbappendcontrol sb m0 control = some (sb', ret)) : Counted sb' := by
  unfold sbappendcontrol at hs
  split at hs
  · cases hs
  · rename_i hne
    split at hs
    · cases hs
      exact h
    · cases hs
      exact h.enqueue (by simp [hne])

theorem Counted.droprecord {sb : Sockbuf} (h : Counted sb) : Counted (sbdroprecord sb) := by
  unfold sbdroprecord
  split
  · exact h
  · rename_i rec next hr
    refine ⟨?_, fun r hmem => h.ne_nil r (by simp [hr, hmem]), h.unlocked⟩
    simp only
    rw [h.counters, Sockbuf.mbufs, hr, List.flatten_cons, sbfreeChain_sballocChain, Sockbuf.mbufs]

/-- `sbdrop` of at most `sb_cc` bytes does not panic, and of all of them takes
a record off a queue that has one. -/
theorem Counted.drop {sb : Sockbuf} (h : Counted sb) {len : Nat} (hlen : (len : Int) ≤ sb.cc) :
    ∃ sb', sbdrop sb len = some sb' ∧ Counted sb' ∧ sb'.cc = sb.cc - len ∧
      ((len : Int) = sb.cc → sb'.recs.length ≤ sb.recs.length - 1) := by
  have hm : sb.mbufs = sb.recs.headD [] ++ sb.recs.tail.flatten := by
    unfold Sockbuf.mbufs
    cases sb.recs <;> simp
  have hcc := h.cc
  rw [hm] at hcc
  obtain ⟨m', next, hd, hl, hsuf⟩ := dropLoop_spec ⟨0, 0⟩ len (sb.recs.headD []) sb.recs.tail (by omega)
  obtain ⟨m'', hf, hl', hnil⟩ := freeEmpty_spec ⟨0, 0⟩ m' next.flatten
  rw [← hm, ← h.counters] at hd
  have hrun : sbdrop sb len =
      some { sb with toCounters := sballocChain ⟨0, 0⟩ (m'' ++ next.flatten), recs := queueOf m'' ++ next } := by
    rw [sbdrop, hd]
    simp [hf]
  refine ⟨_, hrun, ⟨?_, ?_, h.unlocked⟩, ?_, ?_⟩
  · simp only [Sockbuf.mbufs, List.flatten_append, queueOf_flatten]
  · intro r hr
    rcases List.mem_append.1 hr with hq | hn
    · exact queueOf_ne_nil hq
    · exact h.ne_nil r (List.mem_of_mem_tail (hsuf.subset hn))
  · simp only [sballocChain_cc, chainLen_append] at hcc hl ⊢
    omega
  · intro he
    have h0 : chainLen m' = 0 := by
      rw [hcc] at he
      rw [chainLen_append] at hl
      rw [chainLen_append m'] at hl
      rw [chainLen_append] at he
      omega
    rw [hnil h0]
    simp only [queueOf, List.nil_append]
    exact hsuf.length_le.trans (by simp)

/-- The loop of `sbflush` ends within a round for each record. -/
theorem Counted.flushLoop {sb : Sockbuf} (h : Counted sb) :
    ∀ fuel, sb.recs.length < fuel → ∃ sb', flushLoop fuel sb = .ok sb' ∧ Counted sb' ∧ sb'.recs = [] := by
  intro fuel
  induction fuel generalizing sb with
  | zero => intro hlt; omega
  | succ fuel ih =>
    intro hlt
    rw [Socket.flushLoop]
    by_cases h0 : sb.mbcnt = 0
    · exact ⟨sb, by rw [if_pos h0], h, h.mbcnt_eq_zero.1 h0⟩
    · have hne : sb.recs ≠ [] := fun hnil => h0 (h.mbcnt_eq_zero.2 hnil)
      have hcc : (sb.cc.toNat : Int) = sb.cc := Int.toNat_of_nonneg (by rw [h.cc]; omega)
      obtain ⟨sb', hd, hs, -, hlen⟩ := h.drop (le_of_eq hcc)
      have hpos := List.length_pos_iff.2 hne
      have := hlen hcc
      obtain ⟨sb'', hf, hs', hnil⟩ := ih hs (by omega)
      exact ⟨sb'', by rw [if_neg h0, hd]; exact hf, hs', hnil⟩

theorem Counted.flush {sb : Sockbuf} (h : Counted sb) (fuel : Nat) (hfuel : sb.recs.length < fuel) :
    ∃ sb', sbflush fuel sb = .ok sb' ∧ Counted sb' ∧ sb'.recs = [] := by
  obtain ⟨sb', hf, hs, hnil⟩ := h.flushLoop fuel hfuel
  have hcc : sb'.cc = 0 := by simp [hs.cc, Sockbuf.mbufs, hnil]
  exact ⟨sb', by simp [sbflush, h.unlocked, hf, hcc, hnil, bind, Except.bind], hs, hnil⟩

/-! ## Runs -/

/-- A call of one of the operations that returns. `sbdrop` is called with at
most `sb_cc` bytes. -/
inductive Step : Sockbuf → Sockbuf → Prop
  | append (sb m) : Step sb (sbappend sb m)
  | appendrecord (sb m) : Step sb (sbappendrecord sb m)
  | insertoob (sb m) : Step sb (sbinsertoob sb m)
  | appendaddr {sb asa m0 control mget sb' ret} : sbappendaddr sb asa m0 control mget = some (sb', ret) → Step sb sb'
  | appendcontrol {sb m0 control sb' ret} : sbappendcontrol sb m0 control = some (sb', ret) → Step sb sb'
  | drop {sb : Sockbuf} {len : Nat} {sb'} : (len : Int) ≤ sb.cc → sbdrop sb len = some sb' → Step sb sb'
  | droprecord (sb) : Step sb (sbdroprecord sb)
  | flush {fuel sb sb'} : sbflush fuel sb = .ok sb' → Step sb sb'

/-- The buffers reached from an empty one. -/
inductive Reachable : Sockbuf → Prop
  | empty (hiwat mbmax : Int) : Reachable ⟨⟨0, 0⟩, hiwat, mbmax, false, []⟩
  | step {sb sb'} : Reachable sb → Step sb sb' → Reachable sb'

theorem flushLoop_mono {fuel fuel' : Nat} {sb sb' : Sockbuf} (h : flushLoop fuel sb = .ok sb') (hle : fuel ≤ fuel') :
    flushLoop fuel' sb = .ok sb' := by
  induction fuel generalizing fuel' sb with
  | zero => cases h
  | succ fuel ih =>
    obtain ⟨k, rfl⟩ : ∃ k, fuel' = k + 1 := ⟨fuel' - 1, by omega⟩
    rw [flushLoop] at h ⊢
    split at h
    · rename_i h0
      rw [if_pos h0]
      exact h
    · rename_i h0
      rw [if_neg h0]
      split at h
      · cases h
      · exact ih h (by omega)

theorem sbflush_mono {fuel fuel' : Nat} {sb sb' : Sockbuf} (h : sbflush fuel sb = .ok sb') (hle : fuel ≤ fuel') :
    sbflush fuel' sb = .ok sb' := by
  unfold sbflush at h ⊢
  split at h
  · cases h
  · rename_i hl
    rw [if_neg hl]
    cases hf : flushLoop fuel sb with
    | error e => simp [hf, bind, Except.bind] at h
    | ok sb₁ =>
      rw [flushLoop_mono hf hle]
      rwa [hf] at h

theorem Counted.step {sb sb' : Sockbuf} (h : Counted sb) (hs : Step sb sb') : Counted sb' := by
  cases hs with
  | append => exact h.append _
  | appendrecord => exact h.appendrecord _
  | insertoob => exact h.insertoob _
  | appendaddr hs => exact h.appendaddr hs
  | appendcontrol hs => exact h.appendcontrol hs
  | drop hlen hs =>
    obtain ⟨sb'', hd, hc, -⟩ := h.drop hlen
    rw [hd] at hs
    cases hs
    exact hc
  | droprecord => exact h.droprecord
  | flush hs =>
    rename_i fuel
    obtain ⟨sb'', hf, hc, -⟩ := h.flush (fuel + sb.recs.length + 1) (by omega)
    rw [sbflush_mono hs (by omega)] at hf
    cases hf
    exact hc

theorem Reachable.counted {sb : Sockbuf} (h : Reachable sb) : Counted sb := by
  induction h with
  | empty hiwat mbmax => exact ⟨rfl, by simp, rfl⟩
  | step _ hs ih => exact ih.step hs

/-- In every buffer that a sequence of operations leaves, `sb_cc` is the total
`m_len` and `sb_mbcnt` the total storage of the mbufs on the queue, `sbdrop` of
at most `sb_cc` bytes does not panic, and `sbflush` ends with an empty queue and
both counters zero. -/
theorem sockbuf_counts {sb : Sockbuf} (h : Reachable sb) :
    sb.cc = ((sb.recs.flatten.map fun m => (m.data.length : Int)).sum) ∧
      sb.mbcnt = ((sb.recs.flatten.map fun m => (MSIZE + m.ext.getD 0 : Int)).sum) ∧
      (∀ len : Nat, (len : Int) ≤ sb.cc → ∃ sb', sbdrop sb len = some sb') ∧
      ∃ fuel sb', (∀ n, sbflush (fuel + n) sb = .ok sb') ∧ sb'.recs = [] ∧ sb'.cc = 0 ∧ sb'.mbcnt = 0 := by
  have hc := h.counted
  refine ⟨?_, ?_, ?_, ?_⟩
  · rw [hc.cc, chainLen, Nat.cast_list_sum, List.map_map]
    rfl
  · rw [hc.mbcnt, chainStorage, Nat.cast_list_sum, List.map_map]
    congr 1
  · intro len hlen
    obtain ⟨sb', hd, -⟩ := hc.drop hlen
    exact ⟨sb', hd⟩
  · obtain ⟨sb', hf, hc', hnil⟩ := hc.flush (sb.recs.length + 1) (Nat.lt_succ_self _)
    refine ⟨_, sb', fun n => sbflush_mono hf (Nat.le_add_right _ n), hnil, ?_, ?_⟩
    · simp [hc'.cc, Sockbuf.mbufs, hnil]
    · simp [hc'.mbcnt, Sockbuf.mbufs, hnil]

/-- A datagram with its address, an empty end of record, and a byte dropped. -/
theorem sockbuf_counts_datagram :
    ∃ sb, Reachable sb ∧ sb.recs.length = 2 ∧ sb.cc = 5 ∧ sb.mbcnt = 3 * MSIZE + 2048 ∧
      (∃ sb', sbdrop sb 5 = some sb') ∧ ∃ fuel sb', sbflush fuel sb = .ok sb' ∧ sb'.recs = [] := by
  let sb₀ : Sockbuf := ⟨⟨0, 0⟩, 8192, 16384, false, []⟩
  let sb₁ := enqueue sb₀ [sonameMbuf [2, 0], ⟨[1, 2, 3, 4], 20, .data, false, some 2048, some 4⟩]
  let sb₂ := sbappendrecord sb₁ [⟨[], 0, .data, false, none, none⟩, ⟨[], 0, .data, true, none, none⟩]
  have haddr : sbappendaddr sb₀ [2, 0] [⟨[1, 2, 3, 4], 20, .data, false, some 2048, some 4⟩] [] true =
      some (sb₁, true) := by decide +kernel
  obtain ⟨sb₃, hd⟩ : ∃ sb₃, sbdrop sb₂ 1 = some sb₃ := Option.isSome_iff_exists.1 (by decide +kernel)
  have hr : Reachable sb₃ := ((((Reachable.empty 8192 16384).step (.appendaddr haddr)).step (.appendrecord sb₁ _)).step
    (.drop (by decide +kernel) hd))
  have hsb : sb₃ = (sbdrop sb₂ 1).getD sb₂ := by rw [hd]; rfl
  have hcc : sb₃.cc = 5 := by rw [hsb]; decide +kernel
  obtain ⟨-, -, hdrop, fuel, sb', hf, hnil, -⟩ := sockbuf_counts hr
  exact ⟨sb₃, hr, by rw [hsb]; decide +kernel, hcc, by rw [hsb]; decide +kernel, hdrop 5 (by omega), fuel, sb', hf 0, hnil⟩

end BsdKernel.Socket
