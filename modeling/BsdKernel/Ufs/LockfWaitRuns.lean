import BsdKernel.Ufs.LockfWait
/-!
# The requests that wait

The invariant of the waiting system (`WaitInv`): the pairs of a lock and a request on
its chain are the pairs of a sleeping request and what it waits for. A walk of the
lock list only takes pairs away (`WaitInv.put`), a request that goes to sleep adds one
(`WaitInv.sleepOn`), and one that was woken up has none (`WaitInv.drop`).
-/

namespace BsdKernel.Advlock

open BsdKernel.Lib

variable {l : List Lockf} {a : Nat} {s : Sys} {r : Request} {woken : List Nat} {new : Multiset Nat}

/-! ## The invariant -/

/-- The locks are in order and at different addresses, and the edges of the chains are
the sleeping requests with what they wait for. -/
structure WaitInv (s : Sys) : Prop where
  ranges : ∀ i, (∀ lf ∈ s.locks i, lf.Valid) ∧ Ordered (s.locks i)
  distinct : ∀ i, (addrs (s.locks i)).Nodup
  apart : ∀ i j a, a ∈ addrs (s.locks i) → a ∈ addrs (s.locks j) → i = j
  reqs : (s.reqs.map (·.lock.addr)).Nodup
  requests : ∀ r ∈ s.reqs, r.lock.Valid ∧ r.lock.block = [] ∧ ∀ i, r.lock.addr ∉ addrs (s.locks i)
  single : ∀ i, (edges (s.locks i)).Nodup
  onChain : ∀ i a w, (a, w) ∈ edges (s.locks i) →
    ∃ r ∈ s.reqs, r.lock.addr = w ∧ r.asleep = true ∧ r.next = some a ∧ r.inode = i
  sleeping : ∀ r ∈ s.reqs, r.asleep = true → ∃ a, r.next = some a ∧ (a, r.lock.addr) ∈ edges (s.locks r.inode)

theorem mem_addrs : a ∈ addrs l ↔ ∃ lf ∈ l, lf.addr = a := by
  simp [addrs]

theorem eq_of_addr (h : (addrs l).Nodup) {lf lf' : Lockf} (hlf : lf ∈ l) (hlf' : lf' ∈ l) (he : lf.addr = lf'.addr) :
    lf = lf' :=
  List.inj_on_of_nodup_map (Multiset.coe_nodup.1 h) hlf hlf' he

theorem find_addr (h : (addrs l).Nodup) {lf : Lockf} (hlf : lf ∈ l) :
    l.find? (fun x => x.addr = lf.addr) = some lf := by
  cases hf : l.find? (fun x => x.addr = lf.addr) with
  | none => exact absurd (decide_eq_true rfl) (List.find?_eq_none.1 hf lf hlf)
  | some x =>
    have hx : x.addr = lf.addr := by simpa using List.find?_some hf
    rw [eq_of_addr h (List.mem_of_find?_eq_some hf) hlf hx]

theorem WaitInv.eq_of_addr (h : WaitInv s) {r' : Request} (hr : r ∈ s.reqs) (hr' : r' ∈ s.reqs)
    (he : r.lock.addr = r'.lock.addr) : r = r' :=
  List.inj_on_of_nodup_map h.reqs hr hr' he

theorem WaitInv.waitsFor (h : WaitInv s) (hr : r ∈ s.reqs) (ha : r.asleep = true) :
    ∃ lf, s.waitsFor r = some lf ∧ r.lock.addr ∈ lf.block := by
  obtain ⟨a, hnext, hmem⟩ := h.sleeping r hr ha
  obtain ⟨lf, hlf, rfl, hw⟩ := mem_edges.1 hmem
  exact ⟨lf, by rw [Sys.waitsFor, hnext, Option.bind_some, find_addr (h.distinct _) hlf], hw⟩

theorem block_nodup (h : (edges l).Nodup) {lf : Lockf} (hlf : lf ∈ l) : lf.block.Nodup := by
  obtain ⟨front, rest, rfl⟩ := List.append_of_mem hlf
  simp only [edges_append, edges_cons] at h
  have hmid := (Multiset.nodup_add.1 (Multiset.nodup_add.1 h).2.1).1
  exact (Multiset.coe_nodup.1 hmid).of_map _

theorem WaitInv.chained (h : WaitInv s) : Chained s := by
  refine ⟨fun i lf hlf w hw => ?_, fun i lf hlf => ⟨block_nodup (h.single i) hlf, ?_⟩, fun r hr ha => h.waitsFor hr ha⟩
  · obtain ⟨r, hr, haddr, ha, hnext, -⟩ := h.onChain i lf.addr w (mem_edges.2 ⟨lf, hlf, rfl, hw⟩)
    exact ⟨r, hr, haddr, ha, hnext⟩
  · rintro j lf' hlf' ⟨w, hw, hw'⟩
    obtain ⟨r, hr, haddr, -, hnext, hi⟩ := h.onChain i lf.addr w (mem_edges.2 ⟨lf, hlf, rfl, hw⟩)
    obtain ⟨r', hr', haddr', -, hnext', hj⟩ := h.onChain j lf'.addr w (mem_edges.2 ⟨lf', hlf', rfl, hw'⟩)
    obtain rfl := h.eq_of_addr hr hr' (haddr.trans haddr'.symm)
    obtain rfl : i = j := hi.symm.trans hj
    exact ⟨rfl, Advlock.eq_of_addr (h.distinct i) hlf hlf' (Option.some.inj (hnext.symm.trans hnext'))⟩

theorem WaitInv.deadlock (h : WaitInv s) (lock : Lockf) (n wproc : Nat) : ∃ b, deadlock s lock n wproc = some b := by
  induction n generalizing wproc with
  | zero => exact ⟨false, rfl⟩
  | succ n ih =>
    unfold Advlock.deadlock
    cases hw : s.waitsIn wproc with
    | none => exact ⟨false, rfl⟩
    | some r =>
      have hr := List.mem_of_find?_eq_some hw
      have ha : r.proc = wproc ∧ r.asleep = true := by simpa using List.find?_some hw
      obtain ⟨lf, hf, -⟩ := h.waitsFor hr ha.2
      simp only [hf]
      split_ifs
      · exact ⟨false, rfl⟩
      · exact ⟨true, rfl⟩
      · exact ih lf.id

/-! ## Steps -/

theorem not_live_iff : ¬s.Live a ↔ (∀ i, a ∉ addrs (s.locks i)) ∧ ∀ r ∈ s.reqs, r.lock.addr ≠ a := by
  simp only [Sys.Live, mem_addrs, not_or, not_exists, not_and, ne_eq]

@[simp] theorem Request.wake_lock (woken : List Nat) (r : Request) : (r.wake woken).lock = r.lock := by
  unfold Request.wake
  split <;> rfl

theorem Moves.addr_mem {l' : List Lockf} (h : Moves l l' woken new) (ha : a ∈ addrs l') : a ∈ addrs l ∨ a ∈ new := by
  obtain ⟨-, freed, hf⟩ := h
  rw [← Multiset.mem_add, ← hf]
  exact Multiset.mem_add.2 (.inl ha)

theorem Moves.addrs_nodup {l' : List Lockf} (h : Moves l l' woken new) (hl : (addrs l).Nodup) (hn : new.Nodup)
    (hd : ∀ a ∈ new, a ∉ addrs l) : (addrs l').Nodup := by
  obtain ⟨-, freed, hf⟩ := h
  have hsum : (addrs l + new).Nodup := Multiset.nodup_add.2 ⟨hl, hn, Multiset.disjoint_left.2 fun ha hn => hd _ hn ha⟩
  exact (Multiset.nodup_add.1 (hf ▸ hsum)).1

section Put
variable {s : Sys} {i : Nat} {l : List Lockf} {woken : List Nat} {new : Multiset Nat}

theorem WaitInv.not_woken (h : WaitInv s) (hm : Moves (s.locks i) l woken new) {w : Nat} (he : (a, w) ∈ edges l) :
    (a, w) ∈ edges (s.locks i) ∧ w ∉ woken := by
  obtain ⟨⟨gone, hg, hw⟩, -⟩ := hm
  have hold : (a, w) ∈ edges (s.locks i) := by rw [← hg]; exact Multiset.mem_add.2 (.inl he)
  refine ⟨hold, fun hmem => ?_⟩
  rw [← Multiset.mem_coe, ← hw] at hmem
  obtain ⟨⟨a', w'⟩, hgone, he'⟩ := Multiset.mem_map.1 hmem
  obtain rfl : w' = w := he'
  have hold' : (a', w') ∈ edges (s.locks i) := by rw [← hg]; exact Multiset.mem_add.2 (.inr hgone)
  obtain ⟨r, hr, haddr, -, hnext, -⟩ := h.onChain i a w' hold
  obtain ⟨r', hr', haddr', -, hnext', -⟩ := h.onChain i a' w' hold'
  obtain rfl := h.eq_of_addr hr hr' (haddr.trans haddr'.symm)
  obtain rfl := Option.some.inj (hnext.symm.trans hnext')
  have hnd := h.single i
  rw [← hg] at hnd
  exact Multiset.disjoint_left.1 (Multiset.nodup_add.1 hnd).2.2 he hgone

theorem WaitInv.woken_inode (h : WaitInv s) (hm : Moves (s.locks i) l woken new) (hr : r ∈ s.reqs)
    (hw : r.lock.addr ∈ woken) : r.inode = i := by
  obtain ⟨⟨gone, hg, hgw⟩, -⟩ := hm
  rw [← Multiset.mem_coe, ← hgw] at hw
  obtain ⟨⟨a, w⟩, hgone, rfl⟩ := Multiset.mem_map.1 hw
  obtain ⟨r', hr', haddr, -, -, hi⟩ := h.onChain i a _ (by rw [← hg]; exact Multiset.mem_add.2 (.inr hgone))
  obtain rfl := h.eq_of_addr hr hr' haddr.symm
  exact hi

theorem WaitInv.put (h : WaitInv s) (hl : (∀ lf ∈ l, lf.Valid) ∧ Ordered l) (hm : Moves (s.locks i) l woken new)
    (hnew : new.Nodup) (hfresh : ∀ a ∈ new, ¬s.Live a) : WaitInv (s.put i l woken) := by
  have hfresh' : ∀ a ∈ new, ∀ j, a ∉ addrs (s.locks j) := fun a ha => (not_live_iff.1 (hfresh a ha)).1
  have hself : (s.put i l woken).locks i = l := Function.update_self ..
  have hother : ∀ j, j ≠ i → (s.put i l woken).locks j = s.locks j := fun j hj => Function.update_of_ne hj ..
  have haddr : ∀ j a, a ∈ addrs ((s.put i l woken).locks j) → a ∈ addrs (s.locks j) ∨ (j = i ∧ a ∈ new) := by
    intro j a ha
    by_cases hj : j = i
    · subst hj
      rw [hself] at ha
      exact (hm.addr_mem ha).imp_right fun hn => ⟨rfl, hn⟩
    · rw [hother j hj] at ha
      exact .inl ha
  refine ⟨fun j => ?_, fun j => ?_, fun j k a ha hb => ?_, ?_, fun r hr => ?_, fun j => ?_, fun j a w he => ?_, fun r hr ha => ?_⟩
  · by_cases hj : j = i
    · subst hj; rw [hself]; exact hl
    · rw [hother j hj]; exact h.ranges j
  · by_cases hj : j = i
    · subst hj; rw [hself]; exact hm.addrs_nodup (h.distinct j) hnew fun a ha => hfresh' a ha j
    · rw [hother j hj]; exact h.distinct j
  · rcases haddr j a ha with ha' | ⟨rfl, ha'⟩ <;> rcases haddr k a hb with hb' | ⟨rfl, hb'⟩
    · exact h.apart j k a ha' hb'
    · exact absurd ha' (hfresh' a hb' j)
    · exact absurd hb' (hfresh' a ha' k)
    · rfl
  · simpa [Sys.put, Function.comp_def] using h.reqs
  · obtain ⟨r, hold, rfl⟩ := List.mem_map.1 hr
    obtain ⟨hv, hb, hf⟩ := h.requests r hold
    rw [Request.wake_lock]
    refine ⟨hv, hb, fun j hj => ?_⟩
    rcases haddr j _ hj with hj | ⟨-, hn⟩
    · exact hf j hj
    · exact (not_live_iff.1 (hfresh _ hn)).2 r hold rfl
  · by_cases hj : j = i
    · subst hj
      obtain ⟨⟨gone, hg, -⟩, -⟩ := hm
      rw [hself]
      exact (Multiset.nodup_add.1 (hg ▸ h.single j)).1
    · rw [hother j hj]; exact h.single j
  · by_cases hj : j = i
    · subst hj
      rw [hself] at he
      obtain ⟨hold, hnw⟩ := h.not_woken hm he
      obtain ⟨r, hr, hra, hs, hnext, hi⟩ := h.onChain j a w hold
      refine ⟨r, List.mem_map.2 ⟨r, hr, ?_⟩, hra, hs, hnext, hi⟩
      rw [Request.wake, if_neg (by rwa [hra])]
    · rw [hother j hj] at he
      obtain ⟨r, hr, hra, hs, hnext, hi⟩ := h.onChain j a w he
      refine ⟨r, List.mem_map.2 ⟨r, hr, ?_⟩, hra, hs, hnext, hi⟩
      rw [Request.wake, if_neg fun hw => hj (hi.symm.trans (h.woken_inode hm hr hw))]
  · obtain ⟨r, hold, rfl⟩ := List.mem_map.1 hr
    by_cases hw : r.lock.addr ∈ woken
    · simp [Request.wake, hw] at ha
    · rw [Request.wake, if_neg hw] at ha ⊢
      obtain ⟨a, hnext, he⟩ := h.sleeping r hold ha
      refine ⟨a, hnext, ?_⟩
      by_cases hi : r.inode = i
      · subst hi
        rw [hself]
        obtain ⟨⟨gone, hg, hgw⟩, -⟩ := hm
        rw [← hg] at he
        refine (Multiset.mem_add.1 he).resolve_right fun hgone => hw ?_
        rw [← Multiset.mem_coe, ← hgw]
        exact Multiset.mem_map.2 ⟨_, hgone, rfl⟩
      · rw [hother _ hi]; exact he

end Put

theorem addblock_eq {front rest : List Lockf} {block : Lockf} (h : (addrs (front ++ block :: rest)).Nodup) (w : Nat) :
    addblock (front ++ block :: rest) block w = front ++ { block with block := block.block ++ [w] } :: rest := by
  have hne : ∀ lf ∈ front ++ rest, lf.addr ≠ block.addr := by
    intro lf hlf he
    rw [show addrs (front ++ block :: rest) = {block.addr} + addrs (front ++ rest) by
      simp only [addrs_append, addrs_cons]; abel] at h
    exact Multiset.disjoint_left.1 (Multiset.nodup_add.1 h).2.2 (Multiset.mem_singleton_self _) (mem_addrs.2 ⟨lf, hlf, he⟩)
  have hid : ∀ l : List Lockf, (∀ lf ∈ l, lf.addr ≠ block.addr) → addblock l block w = l := by
    intro l hl
    refine (List.map_congr_left fun lf hlf => if_neg (hl lf hlf)).trans (List.map_id l)
  have hsplit : addblock (front ++ block :: rest) block w =
      addblock front block w ++ { block with block := block.block ++ [w] } :: addblock rest block w := by
    simp [addblock]
  rw [hsplit, hid front fun lf hlf => hne lf (by simp [hlf]), hid rest fun lf hlf => hne lf (by simp [hlf])]

theorem addblock_ranges (block : Lockf) (w : Nat) (h : (∀ lf ∈ l, lf.Valid) ∧ Ordered l) :
    (∀ lf ∈ addblock l block w, lf.Valid) ∧ Ordered (addblock l block w) := by
  constructor
  · intro lf hlf
    obtain ⟨lf', hlf', rfl⟩ := List.mem_map.1 hlf
    have hv := h.1 lf' hlf'
    split <;> exact hv
  · refine List.pairwise_map.2 (h.2.imp fun {a b} hab => ?_)
    split <;> split <;> exact hab

theorem WaitInv.sleepOn (h : WaitInv s) {block : Lockf} (hb : block ∈ s.locks r.inode)
    (hr : r.lock.Valid ∧ r.lock.block = []) (hlive : ¬s.Live r.lock.addr) : WaitInv (s.sleepOn r block) := by
  obtain ⟨hfree, hreqs⟩ := not_live_iff.1 hlive
  obtain ⟨front, rest, hl⟩ := List.append_of_mem hb
  have hadd : (s.sleepOn r block).locks r.inode = addblock (s.locks r.inode) block r.lock.addr := Function.update_self ..
  have hself : (s.sleepOn r block).locks r.inode = front ++ { block with block := block.block ++ [r.lock.addr] } :: rest := by
    have hd := h.distinct r.inode
    rw [hl] at hd
    rw [hadd, hl, addblock_eq hd]
  have hother : ∀ j, j ≠ r.inode → (s.sleepOn r block).locks j = s.locks j := fun j hj => Function.update_of_ne hj ..
  have haddrs : ∀ j, addrs ((s.sleepOn r block).locks j) = addrs (s.locks j) := by
    intro j
    by_cases hj : j = r.inode
    · subst hj; rw [hself, hl]; simp
    · rw [hother j hj]
  have hedges : edges ((s.sleepOn r block).locks r.inode) = edges (s.locks r.inode) + {(block.addr, r.lock.addr)} := by
    rw [hself, hl]
    simp only [edges_append, edges_cons, List.map_append, ← Multiset.coe_add]
    simp only [List.map_cons, List.map_nil, Multiset.coe_singleton]
    abel
  refine ⟨fun j => ?_, fun j => ?_, fun j k a => ?_, ?_, fun q hq => ?_, fun j => ?_, fun j a w he => ?_, fun q hq ha => ?_⟩
  · by_cases hj : j = r.inode
    · subst hj
      rw [hadd]
      exact addblock_ranges block _ (h.ranges _)
    · rw [hother j hj]; exact h.ranges j
  · rw [haddrs]; exact h.distinct j
  · rw [haddrs, haddrs]; exact h.apart j k a
  · simp only [Sys.sleepOn, List.map_append, List.map_cons, List.map_nil]
    exact List.nodup_append.2 ⟨h.reqs, by simp, by simpa using hreqs⟩
  · simp only [haddrs]
    rcases List.mem_append.1 hq with hq | hq
    · exact h.requests q hq
    · rw [List.mem_singleton.1 hq]
      exact ⟨hr.1, hr.2, hfree⟩
  · by_cases hj : j = r.inode
    · subst hj
      rw [hedges]
      refine Multiset.nodup_add.2 ⟨h.single _, Multiset.nodup_singleton _, Multiset.disjoint_left.2 fun {e} he he' => ?_⟩
      rw [Multiset.mem_singleton.1 he'] at he
      obtain ⟨q, hq, hqa, -⟩ := h.onChain _ _ _ he
      exact hreqs q hq hqa
    · rw [hother j hj]; exact h.single j
  · have hold : (a, w) ∈ edges (s.locks j) →
        ∃ q ∈ (s.sleepOn r block).reqs, q.lock.addr = w ∧ q.asleep = true ∧ q.next = some a ∧ q.inode = j := by
      intro he
      obtain ⟨q, hq, hqa⟩ := h.onChain j a w he
      exact ⟨q, List.mem_append_left _ hq, hqa⟩
    by_cases hj : j = r.inode
    · subst hj
      rw [hedges] at he
      rcases Multiset.mem_add.1 he with he | he
      · exact hold he
      · obtain ⟨rfl, rfl⟩ := Prod.mk.inj (Multiset.mem_singleton.1 he)
        exact ⟨_, List.mem_append_right _ (List.mem_singleton_self _), rfl, rfl, rfl, rfl⟩
    · rw [hother j hj] at he
      exact hold he
  · rcases List.mem_append.1 hq with hq | hq
    · obtain ⟨a, hnext, he⟩ := h.sleeping q hq ha
      refine ⟨a, hnext, ?_⟩
      by_cases hj : q.inode = r.inode
      · rw [hj, hedges, ← hj]; exact Multiset.mem_add.2 (.inl he)
      · rw [hother _ hj]; exact he
    · rw [List.mem_singleton.1 hq]
      exact ⟨block.addr, rfl, by rw [hedges]; exact Multiset.mem_add.2 (.inr (Multiset.mem_singleton_self _))⟩

theorem WaitInv.drop (h : WaitInv s) (ha : r.asleep = false) : WaitInv (s.drop r) := by
  refine ⟨h.ranges, h.distinct, h.apart, h.reqs.sublist (List.erase_sublist.map _),
    fun q hq => h.requests q (List.mem_of_mem_erase hq), h.single, fun i a w he => ?_,
    fun q hq => h.sleeping q (List.mem_of_mem_erase hq)⟩
  obtain ⟨q, hq, hqa, hs, hnext, hi⟩ := h.onChain i a w he
  refine ⟨q, (List.mem_erase_of_ne fun he => ?_).2 hq, hqa, hs, hnext, hi⟩
  rw [he, ha] at hs
  cases hs

theorem WaitInv.drop_not_live (h : WaitInv s) (hr : r ∈ s.reqs) : ¬(s.drop r).Live r.lock.addr := by
  refine not_live_iff.2 ⟨(h.requests r hr).2.2, fun q hq he => ?_⟩
  have hnd : s.reqs.Nodup := h.reqs.of_map _
  obtain ⟨hne, hq⟩ := (hnd.mem_erase_iff).1 hq
  exact hne (h.eq_of_addr hq hr he)

theorem put_live {i : Nat} (hm : Moves (s.locks i) l woken new) (ha : ¬s.Live a) (hn : a ∉ new) :
    ¬(s.put i l woken).Live a := by
  obtain ⟨hfree, hreqs⟩ := not_live_iff.1 ha
  refine not_live_iff.2 ⟨fun j hj => ?_, fun r hr => ?_⟩
  · by_cases hji : j = i
    · subst hji
      rw [show (s.put j l woken).locks j = l from Function.update_self ..] at hj
      rcases hm.addr_mem hj with hj | hj
      · exact hfree j hj
      · exact hn hj
    · rw [show (s.put i l woken).locks j = s.locks j from Function.update_of_ne hji ..] at hj
      exact hfree j hj
  · obtain ⟨q, hq, rfl⟩ := List.mem_map.1 hr
    rw [Request.wake_lock]
    exact hreqs q hq

theorem WaitInv.clear (h : WaitInv s) (i : Nat) {fresh : Nat} (unlock : Lockf) (hv : unlock.Valid)
    (htype : unlock.type = .UNLCK) (hfresh : ¬s.Live fresh) (hfits : FitsClear unlock (s.locks i)) :
    ∃ l woken, clearlock unlock fresh (s.locks i) = some (l, woken) ∧ Moves (s.locks i) l woken {fresh} ∧
      WaitInv (s.put i l woken) := by
  obtain ⟨l, woken, he, hh⟩ := clearlock_spec fresh htype hv (h.ranges i).1 (h.ranges i).2 hfits
  have hm := clearlock_moves he
  exact ⟨l, woken, he, hm, h.put ⟨hh.valid, hh.ordered⟩ hm (Multiset.nodup_singleton _) (by simpa using hfresh)⟩

theorem WaitInv.attempt (h : WaitInv s) {fresh : Nat} (hr : r.lock.Valid ∧ r.lock.block = [])
    (hlive : ¬s.Live r.lock.addr) (hfresh : ¬s.Live fresh) (hne : r.lock.addr ≠ fresh) (hk : Keeps s r) :
    ∃ s', attempt s r fresh = some s' ∧ WaitInv s' := by
  unfold Advlock.attempt
  unfold Keeps at hk
  cases hg : getblock r.lock (s.locks r.inode) with
  | none =>
    rw [hg] at hk
    obtain ⟨l, woken, he, hh⟩ := setlock_spec fresh hr.1 (h.ranges r.inode).1 (h.ranges r.inode).2 hk.1
    have hm := setlock_moves hr.1 (h.ranges r.inode).1 (h.ranges r.inode).2 hk.1 hr.2 hk.2 he
    refine ⟨s.put r.inode l woken, by simp only [he, Option.map_some], h.put ⟨hh.valid, hh.ordered⟩ hm ?_ ?_⟩
    · refine Multiset.nodup_add.2 ⟨Multiset.nodup_singleton _, Multiset.nodup_singleton _, ?_⟩
      simpa using hne.symm
    · intro a ha
      rcases Multiset.mem_add.1 ha with ha | ha
      · rwa [Multiset.mem_singleton.1 ha]
      · rwa [Multiset.mem_singleton.1 ha]
  | some block =>
    rw [hg] at hk
    obtain ⟨hmem, hblocks⟩ := getblock_some hg
    by_cases hwait : r.lock.wait = false
    · exact ⟨s, by simp [hwait], h⟩
    · have hdead : ∃ b, (if r.lock.posix ∧ block.posix then Advlock.deadlock s r.lock maxlockdepth block.id
          else some false) = some b := by
        split
        · exact h.deadlock r.lock maxlockdepth block.id
        · exact ⟨false, rfl⟩
      obtain ⟨b, hb⟩ := hdead
      simp only [if_neg hwait, hb]
      cases b with
      | true => exact ⟨s, rfl, h⟩
      | false =>
        by_cases hf : r.lock.flock ∧ r.lock.type = .WRLCK
        · obtain ⟨l, woken, he, hm, hput⟩ := h.clear r.inode { r.lock with type := .UNLCK } hr.1 rfl hfresh
            (hk (by simpa using hwait) hf.1 hf.2)
          refine ⟨(s.put r.inode l woken).sleepOn r block, ?_, hput.sleepOn ?_ hr ?_⟩
          · simp only [if_pos hf, he, Option.map_some]
          · rw [show (s.put r.inode l woken).locks r.inode = l from Function.update_self ..]
            exact clearlock_others he hblocks.1 hmem
          · exact put_live hm hlive (by simpa using hne)
        · exact ⟨s.sleepOn r block, by simp only [if_neg hf], h.sleepOn hmem hr hlive⟩

theorem step_inv (h : WaitInv s) (op : Op) (hl : Legal (some s) op) (hc : Careful (some s) op) :
    ∃ s', step (some s) op = some s' ∧ WaitInv s' := by
  cases op with
  | set proc inode lock fresh =>
    obtain ⟨-, hv, -, hb, hne, hlive, hfresh⟩ := hl
    exact h.attempt ⟨hv, hb⟩ hlive hfresh hne hc
  | resume r fresh =>
    obtain ⟨hr, ha, hfresh⟩ := hl
    have hd := h.drop ha
    obtain ⟨hv, hb, -⟩ := h.requests r hr
    obtain ⟨hfree, hreqs⟩ := not_live_iff.1 hfresh
    exact hd.attempt ⟨hv, hb⟩ (h.drop_not_live hr)
      (not_live_iff.2 ⟨hfree, fun q hq => hreqs q (List.mem_of_mem_erase hq)⟩) (hreqs r hr) hc
  | fail r => exact ⟨s.drop r, rfl, h.drop hc⟩
  | clear inode unlock fresh =>
    obtain ⟨hv, htype, hfresh⟩ := hl
    obtain ⟨l, woken, he, -, hput⟩ := h.clear _ _ hv htype hfresh hc
    exact ⟨s.put inode l woken, by simp only [step, he, Option.map_some], hput⟩

/-! ## Runs -/

/-- No inode has a lock. -/
def Sys.init : Sys := ⟨fun _ => [], []⟩

theorem init_inv : WaitInv .init := by
  refine ⟨fun _ => ⟨nofun, .nil⟩, fun _ => Multiset.nodup_zero, fun _ _ _ ha => ?_, .nil, nofun, fun _ => Multiset.nodup_zero,
    fun _ _ _ he => ?_, nofun⟩
  · exact absurd ha (Multiset.notMem_zero _)
  · exact absurd he (Multiset.notMem_zero _)

/-- In every run of careful steps the requests on the chains are those that sleep,
each on the chain of the lock it names, and no pointer to a freed lock is followed. -/
theorem lockf_waits (ops : List Op) (hl : Along step Legal (some .init) ops) (hc : Along step Careful (some .init) ops) :
    ∀ st ∈ states step (some .init) ops, ∃ s, st = some s ∧ Chained s := by
  have hrun : ∀ st ∈ states step (some .init) ops, ∃ s, st = some s ∧ WaitInv s := by
    refine states_of_along ?_ ⟨.init, rfl, init_inv⟩ ((along_and step Legal Careful _ ops).2 ⟨hl, hc⟩)
    rintro st op ⟨s, rfl, hs⟩ ⟨hl, hc⟩
    exact step_inv hs op hl hc
  intro st hst
  obtain ⟨s, he, hs⟩ := hrun st hst
  exact ⟨s, he, hs.chained⟩

section Sample

/-- A system with locks on one inode. -/
def oneInode (l : List Lockf) (reqs : List Request) : Sys := ⟨Function.update (fun _ => []) 0 l, reqs⟩

theorem oneInode_update (l l' : List Lockf) (reqs reqs' : List Request) :
    (⟨Function.update (oneInode l reqs).locks 0 l', reqs'⟩ : Sys) = oneInode l' reqs' := by
  rw [oneInode, Function.update_idem, oneInode]

theorem init_oneInode : Sys.init = oneInode [] [] := by
  rw [oneInode, Function.update_eq_self_iff.2 rfl, Sys.init]

theorem oneInode_not_live {reqs : List Request} (hl : a ∉ l.map (·.addr)) (hr : a ∉ reqs.map (·.lock.addr)) :
    ¬(oneInode l reqs).Live a := by
  rintro (⟨i, lf, hlf, rfl⟩ | ⟨r, hmem, rfl⟩)
  · by_cases hi : i = 0
    · subst hi
      simp only [oneInode, Function.update_self] at hlf
      exact hl (List.mem_map_of_mem hlf)
    · simp only [oneInode, Function.update_of_ne hi] at hlf
      cases hlf
  · exact hr (List.mem_map_of_mem hmem)

/-- A write lock of process 7 on the first bytes, and one of process 8 that overlaps it. -/
def first : Lockf := ⟨1, true, false, true, .WRLCK, 0, 9, 7, []⟩

def second : Lockf := ⟨2, true, false, true, .WRLCK, 5, 20, 8, []⟩

/-- Process 8 waits for process 7. -/
def blocked : Sys := oneInode [{ first with block := [2] }] [⟨second, 0, 8, some 1, true⟩]

def toBlocked : List Op := [.set 7 0 first 3, .set 8 0 second 3]

theorem step_first : step (some .init) (.set 7 0 first 3) = some (oneInode [first] []) := by
  have he : step (some .init) (.set 7 0 first 3) = some ⟨Function.update Sys.init.locks 0 [first], []⟩ := rfl
  rw [he, init_oneInode, oneInode_update]

theorem step_second : step (some (oneInode [first] [])) (.set 8 0 second 3) = some blocked := by
  have he : step (some (oneInode [first] [])) (.set 8 0 second 3) =
      some ⟨Function.update (oneInode [first] []).locks 0 [{ first with block := [2] }],
        [⟨second, 0, 8, some 1, true⟩]⟩ := rfl
  rw [he, oneInode_update, blocked]

theorem along_blocked {ok : Option Sys → Op → Prop} {ops : List Op} (h₁ : ok (some .init) (.set 7 0 first 3))
    (h₂ : ok (some (oneInode [first] [])) (.set 8 0 second 3)) (h : Along step ok (some blocked) ops) :
    Along step ok (some .init) (toBlocked ++ ops) := by
  refine ⟨h₁, ?_⟩
  rw [step_first]
  refine ⟨h₂, ?_⟩
  rw [step_second]
  exact h

theorem legal_blocked {ops : List Op} (h : Along step Legal (some blocked) ops) :
    Along step Legal (some .init) (toBlocked ++ ops) := by
  refine along_blocked ?_ ?_ h
  · rw [init_oneInode]
    exact ⟨nofun, by decide, by decide, rfl, by decide, oneInode_not_live (by decide) (by decide),
      oneInode_not_live (by decide) (by decide)⟩
  · exact ⟨nofun, by decide, by decide, rfl, by decide, oneInode_not_live (by decide) (by decide),
      oneInode_not_live (by decide) (by decide)⟩

/-- Process 7 unlocks, which wakes up process 8, and that gets its lock. -/
def handOff : List Op := [.clear 0 ⟨4, true, false, true, .UNLCK, 0, -1, 7, []⟩ 3, .resume ⟨second, 0, 8, none, false⟩ 3]

theorem step_unlock : step (some blocked) (.clear 0 ⟨4, true, false, true, .UNLCK, 0, -1, 7, []⟩ 3) =
    some (oneInode [] [⟨second, 0, 8, none, false⟩]) := by
  have he : step (some blocked) (.clear 0 ⟨4, true, false, true, .UNLCK, 0, -1, 7, []⟩ 3) =
      some ⟨Function.update blocked.locks 0 [], [⟨second, 0, 8, none, false⟩]⟩ := rfl
  rw [he, blocked, oneInode_update]

theorem lockf_waits_hand_off :
    (Along step Legal (some .init) (toBlocked ++ handOff) ∧ Along step Careful (some .init) (toBlocked ++ handOff)) ∧
      ∀ st ∈ states step (some .init) (toBlocked ++ handOff), ∃ s, st = some s ∧ Chained s := by
  have hl : Along step Legal (some .init) (toBlocked ++ handOff) := by
    refine legal_blocked ⟨⟨by decide, rfl, oneInode_not_live (by decide) (by decide)⟩, ?_⟩
    rw [step_unlock]
    exact ⟨⟨List.mem_singleton_self _, rfl, oneInode_not_live (by decide) (by decide)⟩, trivial⟩
  have hc : Along step Careful (some .init) (toBlocked ++ handOff) := by
    refine along_blocked ⟨nofun, nofun⟩ nofun ⟨nofun, ?_⟩
    rw [step_unlock]
    exact ⟨⟨nofun, nofun⟩, trivial⟩
  exact ⟨⟨hl, hc⟩, lockf_waits _ hl hc⟩

/-- A signal wakes up process 8. -/
def interrupted : List Op := [.fail ⟨second, 0, 8, some 1, true⟩]

/-- Process 7 extends its lock. -/
def extended : List Op := [.set 7 0 { first with addr := 4, last := 19 } 3]

theorem step_interrupted : step (some blocked) (.fail ⟨second, 0, 8, some 1, true⟩) =
    some (oneInode [{ first with block := [2] }] []) := rfl

theorem step_extended : step (some blocked) (.set 7 0 { first with addr := 4, last := 19 } 3) =
    some (oneInode [{ first with addr := 4, last := 19, block := [2] }] [⟨second, 0, 8, some 1, true⟩]) := by
  have he : step (some blocked) (.set 7 0 { first with addr := 4, last := 19 } 3) =
      some ⟨Function.update blocked.locks 0 [{ first with addr := 4, last := 19, block := [2] }],
        [⟨second, 0, 8, some 1, true⟩]⟩ := rfl
  rw [he, blocked, oneInode_update]

theorem mem_states_blocked (op : Op) : step (some blocked) op ∈ states step (some .init) (toBlocked ++ [op]) := by
  simp [toBlocked, states, step_first, step_second]

/-- The request that was freed is on the chain; the request on the chain of the new
lock names the one that was freed. -/
theorem lockf_waits_stale :
    (Along step Legal (some .init) (toBlocked ++ interrupted) ∧
      ¬∀ st ∈ states step (some .init) (toBlocked ++ interrupted), ∃ s, st = some s ∧ Chained s) ∧
    (Along step Legal (some .init) (toBlocked ++ extended) ∧
      ¬∀ st ∈ states step (some .init) (toBlocked ++ extended), ∃ s, st = some s ∧ Chained s) := by
  refine ⟨⟨legal_blocked ⟨List.mem_singleton_self _, trivial⟩, fun h => ?_⟩, legal_blocked ⟨?_, trivial⟩, fun h => ?_⟩
  · obtain ⟨s, he, hs⟩ := h _ (mem_states_blocked _)
    obtain rfl := Option.some.inj (step_interrupted.symm.trans he)
    obtain ⟨r, hr, -⟩ := hs.onChain 0 _ (List.mem_singleton_self _) 2 (List.mem_singleton_self _)
    cases hr
  · exact ⟨by decide, by decide, by decide, rfl, by decide, oneInode_not_live (by decide) (by decide),
      oneInode_not_live (by decide) (by decide)⟩
  · obtain ⟨s, he, hs⟩ := h _ (mem_states_blocked _)
    obtain rfl := Option.some.inj (step_extended.symm.trans he)
    obtain ⟨r, hr, -, -, hnext⟩ := hs.onChain 0 _ (List.mem_singleton_self _) 2 (List.mem_singleton_self _)
    rw [List.mem_singleton.1 hr] at hnext
    exact absurd hnext (by decide)

end Sample

end BsdKernel.Advlock
