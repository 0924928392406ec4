import BsdKernel.Nfs.SrvcacheInv
/-!
# Runs of the duplicate request cache

`srvcache_runs`: in every run in which a request that is not in the cache finds the last entry of the LRU list unlocked, no search
compares with an address that was overwritten, and a request is looked up again only before as many others as there are entries,
no request that is not idempotent is executed after it gave a valid reply, and every duplicate gets this reply or none.
-/

set_option linter.unusedSectionVars false

namespace BsdKernel.Srvcache

open BsdKernel.Lib

variable {new : List Happening}

/-! ## Runs -/

/-- What is so when a request is compared with the entries: addresses are of `AF_INET`, and those of the entries are intact. -/
structure Srv.Comparable (s : Srv) (q : Req) : Prop where
  inet : ∃ a, s.dat q.nam = .inet a
  intact : s.Intact q

/-- What is so when a request is looked up. -/
structure Srv.Searchable (s : Srv) (asked : List Key) (q : Req) : Prop extends s.Comparable q where
  recent : s.key q ∈ asked → (since (s.key q) asked).card < NFSRVCACHESIZ
  unlocked : (∀ i, s.cellKey i ≠ some (s.key q)) → ∀ i, s.lru.getLast? = some i → (s.ent i).locked = false

/-- No request waits for the last entry, and what is compared can be compared. -/
def Srv.Meets (s : Srv) (asked : List Key) : Event → Prop
  | .getcache p _ => (∀ q, s.procs p = .search q → s.Searchable asked q) ∧ ∀ q i, s.procs p ≠ .missAwake q i
  | .updatecache p _ => ∀ q o, s.procs p = .update q o → s.Comparable q
  | _ => True

/-- The states of the server and what was seen until then, from `nfsrv_initcache` on. -/
inductive Reached : Srv → List Happening → Prop
  | boot (s : Srv) (hidle : ∀ p, s.procs p = .idle) (hreplies : ∀ m, s.replies m = none) : Reached s.initcache []
  | step (s s' : Srv) (hist new : List Happening) (ev : Event) (hrun : Reached s hist) (hallowed : s.Allowed ev)
    (hmeets : s.Meets (asked hist) ev) (hstep : s.step ev = .ok (s', new)) : Reached s' (new ++ hist)

/-! ## Small changes -/

/-- The entry `i` is `e` now, the LRU list is `l`, and the process `p` is at `pc`. Sleepers may have been woken. -/
structure After (s s' : Srv) (l : List Ix) (p : Nat) (i : Ix) (e : Nfsrvcache) (pc : Pc) : Prop where
  ent : s'.ent = Function.update s.ent i e
  lru : s'.lru = l
  chain : s'.chain = s.chain
  dat : s'.dat = s.dat
  replies : s'.replies = s.replies
  next : s'.next = s.next
  self : s'.procs p = pc
  others : ∀ p', p' ≠ p → (s'.procs p').pending = (s.procs p').pending ∧ (s'.procs p').lock = (s.procs p').lock

section Changes
variable (s : Srv) (p : Nat) (i : Ix) (e : Nfsrvcache) (pc : Pc)

theorem release_ent : (s.release i).ent = Function.update s.ent i { s.ent i with locked := false, wanted := false } := by
  unfold Srv.release
  simp only
  split
  · rfl
  · rename_i h
    simp only [Srv.setEnt, Bool.eq_false_of_not_eq_true h]

theorem release_rest : (s.release i).lru = s.lru ∧ (s.release i).chain = s.chain ∧ (s.release i).dat = s.dat ∧
    (s.release i).replies = s.replies ∧ (s.release i).next = s.next := by
  unfold Srv.release
  simp only
  split <;> exact ⟨rfl, rfl, rfl, rfl, rfl⟩

theorem release_procs (p : Nat) : ((s.release i).procs p).pending = (s.procs p).pending ∧
    ((s.release i).procs p).lock = (s.procs p).lock := by
  unfold Srv.release
  simp only
  split
  · exact ⟨pending_wake .., lock_wake ..⟩
  · exact ⟨rfl, rfl⟩

theorem after_set : After s ((s.setEnt i e).setPc p pc) s.lru p i e pc := by
  refine ⟨rfl, rfl, rfl, rfl, rfl, rfl, Function.update_self .., fun p' hp' => ?_⟩
  have hprocs : ((s.setEnt i e).setPc p pc).procs p' = s.procs p' := Function.update_of_ne hp' ..
  rw [hprocs]
  exact ⟨rfl, rfl⟩

theorem after_release : After s (((s.setEnt i e).release i).setPc p pc) s.lru p i { e with locked := false, wanted := false } pc := by
  obtain ⟨hlru, hchain, hdat, hreplies, hnext⟩ := release_rest (s.setEnt i e) i
  refine ⟨?_, hlru, hchain, hdat, hreplies, hnext, Function.update_self .., fun p' hp' => ?_⟩
  · have hent := release_ent (s.setEnt i e) i
    simp only [Srv.setEnt, Function.update_idem, Function.update_self] at hent
    exact hent
  · have hprocs : (((s.setEnt i e).release i).setPc p pc).procs p' = ((s.setEnt i e).release i).procs p' := Function.update_of_ne hp' ..
    rw [hprocs]
    exact release_procs (s.setEnt i e) i p'

variable {s p i e pc} {s' : Srv} {l : List Ix}

theorem After.of_head (ha : After (s.put_at_head i) s' l p i e pc) : After s s' l p i e pc :=
  ⟨ha.ent, ha.lru, ha.chain, ha.dat, ha.replies, ha.next, ha.self, ha.others⟩

theorem After.key (ha : After s s' l p i e pc) (q : Req) : s'.key q = s.key q := by rw [Srv.key, Srv.key, ha.dat]

theorem After.entry (ha : After s s' l p i e pc) : s'.ent i = e := by rw [ha.ent, Function.update_self]

end Changes

/-! ## Steps -/

section Steps
variable {s s' : Srv} {hist : List Happening} {p : Nat} {i : Ix} {q : Req} {e' : Nfsrvcache} {pc : Pc}
variable {q' : Req} {j : Ix} {o : Outcome}

theorem cellKey_change (hent : s'.ent = Function.update s.ent i e') (hused : e'.rc_state ≠ .unused) :
    s'.cellKey = Function.update s.cellKey i (some e'.key) := by
  funext j
  by_cases hj : j = i
  · subst hj
    rw [Function.update_self]
    exact cellKey_some.2 ⟨by rw [hent, Function.update_self]; exact hused, by rw [hent, Function.update_self]⟩
  · rw [Function.update_of_ne hj]
    simp only [Srv.cellKey, hent, Function.update_of_ne hj]

theorem cellKey_kept (hent : s'.ent = Function.update s.ent i e') (hused : e'.rc_state ≠ .unused) (hi : s.cellKey i = some e'.key) :
    s'.cellKey = s.cellKey := by rw [cellKey_change hent hused, ← hi, Function.update_eq_self]

theorem Inv.free_of_unlocked (h : Inv s hist) (hi : (s.ent i).locked = false) {p' : Nat} {o : Option Reply} :
    (s.procs p').lock ≠ some (q', o, i) := by
  intro hl
  have hlocked := (h.hold p' q' o i hl).locked
  rw [hi] at hlocked
  cases hlocked

theorem Inv.idle_of_done (h : Inv s hist) {k : Key} (hi : s.cellKey i = some k) (hdone : (s.ent i).rc_state = .done)
    {p' : Nat} {o : Option Outcome} (hp : (s.procs p').pending = some (q', o)) : s.key q' ≠ k := by
  rintro rfl
  have hstate := (h.pend p' q' o hp).inprog i hi
  rw [hdone] at hstate
  cases hstate

theorem EntryOk.noFlags (h : EntryOk s hist e') (hstate : e'.rc_state ≠ .done) : (e'.repstatus || e'.repmbuf) = false := by
  by_contra hc
  exact hstate (h.replied (Bool.eq_true_of_not_eq_false hc)).1

theorem Inv.other_mbuf (h : Inv s hist) (hi : (s.ent i).repmbuf = true) {m : Nat} (hm : (s.ent i).rc_un = .repmb m)
    (hj : j ≠ i) (hmb : (s.ent j).repmbuf = true) :
    (s.ent j).rc_un ≠ .repmb m := fun hun => hj (h.apart j i m hmb hi hun hm)

theorem Inv.live (h : Inv s hist) (hi : (s.ent i).repmbuf = true) : ∃ m r, (s.ent i).rc_un = .repmb m ∧ s.replies m = some r := by
  obtain ⟨-, -, r, hr, -⟩ := (h.entry i).replied (by simp [hi])
  unfold Srv.cached at hr
  rw [(h.entry i).kind hi] at hr
  cases hun : (s.ent i).rc_un with
  | repstat st => simp [hun] at hr
  | repmb m => exact ⟨m, r, rfl, by simpa [hun] using hr⟩

theorem Inv.after {l : List Ix} {hist' : List Happening} (h : Inv s hist) (ha : After s s' l p i e' pc) (htable : Table s' (asked hist'))
    (hvalids : ∀ k, valids k hist' = valids k hist) (hasked : ∀ k ∈ asked hist, k ∈ asked hist')
    (hfree : ∀ p' q o, p' ≠ p → (s.procs p').lock ≠ some (q, o, i))
    (hstate : e'.rc_state = .inprog ∨ ∀ p' q o, p' ≠ p → (s.procs p').pending = some (q, o) → e'.key ≠ s.key q)
    (hun : e'.repmbuf = true → (s.ent i).repmbuf = true ∧ e'.rc_un = (s.ent i).rc_un) (hentry : EntryOk s hist' e')
    (hpend : ∀ q o, pc.pending = some (q, o) → Pend s' hist' q o ∧
      ∀ p' q' o', p' ≠ p → (s.procs p').pending = some (q', o') → s.key q' ≠ s.key q)
    (hlock : ∀ q o j, pc.lock = some (q, o, j) → j = i ∧ Holds s' hist' q o i) : Inv s' hist' := by
  refine h.change htable ha.ent hvalids hasked ha.dat ha.others hfree hstate ?_ (fun q o hp => hpend q o (ha.self ▸ hp))
    (fun q o j hp => hlock q o j (ha.self ▸ hp)) (fun j m _ _ _ => by rw [ha.replies]) ?_ fun m hm => ?_
  · refine ⟨fun hf => ?_, hentry.failed, hentry.kind⟩
    obtain ⟨hd, hn, r, hr, hv⟩ := hentry.replied hf
    exact ⟨hd, hn, r, by rw [← hr]; exact cached_congr fun _ m _ => by rw [ha.replies], hv⟩
  · intro j m hj hmb hm hmb'
    obtain ⟨hold, heq⟩ := hun hmb
    exact h.other_mbuf hold (heq ▸ hm) hj hmb'
  · rw [ha.replies]
    exact h.fresh m (ha.next ▸ hm)

/-! ### `nfsrv_getcache` -/

/-- `RC_DROPIT` -/
theorem Inv.drop (h : Inv s hist) (hi : s.cellKey i = some (s.key q)) (hunlocked : (s.ent i).locked = false) (hp : s.procs p = .search q)
    (ha : After s s' (touch i s.lru) p i { s.ent i with locked := false, wanted := false } (.finished q)) :
    Inv s' ([.dropped (s.key q), .looked (s.key q)] ++ hist) := by
  have hents : ∀ j, SameEnt (s.ent j) (s'.ent j) := by
    intro j
    rw [ha.ent]
    by_cases hj : j = i
    · subst hj
      rw [Function.update_self]
      exact ⟨false, (s.ent j).rc_timestamp, by rw [← hunlocked]⟩
    · rw [Function.update_of_ne hj]
      exact .refl _
  refine h.same (h.table.hit hi (cellKey_same hents) ha.lru ha.chain) hents (fun _ => rfl) (fun _ => List.mem_cons_of_mem _) ?_ ?_
    (fun _ _ _ => ha.key _) ha.replies ha.next
  · intro p'
    by_cases hpp : p' = p
    · rw [hpp, ha.self]
      exact .inr rfl
    · exact .inl (ha.others p' hpp).1
  · intro p'
    by_cases hpp : p' = p
    · rw [hpp, ha.self, hp]
      rfl
    · exact (ha.others p' hpp).2

theorem Inv.reply (h : Inv s hist) (hi : s.cellKey i = some (s.key q)) (hunlocked : (s.ent i).locked = false)
    (hflags : ((s.ent i).repstatus || (s.ent i).repmbuf) = true)
    (ha : After s s' (touch i s.lru) p i { s.ent i with locked := true } (.replying q i)) : Inv s' ([.looked (s.key q)] ++ hist) := by
  obtain ⟨hused, hkey⟩ := cellKey_some.1 hi
  obtain ⟨hdone, hnon, r, hr, hv⟩ := (h.entry i).replied hflags
  have hcell := cellKey_kept ha.ent hused (hi.trans (congrArg some hkey.symm))
  refine h.after ha (h.table.hit hi hcell ha.lru ha.chain) (fun _ => rfl) (fun _ => List.mem_cons_of_mem _)
    (fun _ _ _ _ => h.free_of_unlocked hunlocked) (.inr fun p' q' o _ hp' hk => h.idle_of_done hi hdone hp' (hk.symm.trans hkey))
    (fun hmb => ⟨hmb, rfl⟩) ⟨fun _ => ⟨hdone, hnon, r, hr, hv⟩, fun _ _ hl => (nomatch hl), (h.entry i).kind⟩ nofun ?_
  intro q' o j hlock
  cases hlock
  refine ⟨rfl, by rw [ha.entry], by rw [ha.entry, ha.key]; exact hkey, by rw [ha.entry]; exact hdone, ?_⟩
  rw [ha.entry]
  exact hflags

/-- `RC_DOIT` for a request that was executed without a valid reply, or is idempotent. -/
theorem Inv.redo (h : Inv s hist) (hi : s.cellKey i = some (s.key q)) (hunlocked : (s.ent i).locked = false)
    (hdone : (s.ent i).rc_state = .done) (hflags : ((s.ent i).repstatus || (s.ent i).repmbuf) = false)
    (ha : After s s' (touch i s.lru) p i { s.ent i with rc_state := .inprog, locked := false, wanted := false } (.running q)) :
    Inv s' ([.began (s.key q), .looked (s.key q)] ++ hist) ∧ (nonidempotent q.proc = true → valids (s.key q) hist = []) := by
  obtain ⟨hused, hkey⟩ := cellKey_some.1 hi
  have hproc : (s.ent i).rc_proc = q.proc := congrArg Key.proc hkey
  have hvalids : nonidempotent q.proc = true → valids (s.key q) hist = [] := by
    intro hn
    rw [← hkey]
    exact (h.entry i).failed hdone (hproc ▸ hn) hunlocked hflags
  have hcell := cellKey_kept ha.ent nofun (hi.trans (congrArg some hkey.symm))
  have htable := h.table.hit hi hcell ha.lru ha.chain
  refine ⟨?_, hvalids⟩
  refine h.after ha htable (fun _ => rfl) (fun _ => List.mem_cons_of_mem _) (fun _ _ _ _ => h.free_of_unlocked hunlocked) (.inl rfl)
    (fun hmb => ⟨hmb, rfl⟩) ⟨fun hf => ?_, nofun, (h.entry i).kind⟩ ?_ nofun
  · exact absurd hf (Bool.eq_false_iff.1 hflags)
  · intro q' o hpend
    cases hpend
    refine ⟨⟨?_, fun j hj => ?_, fun hn => by rw [ha.key]; exact hvalids hn, nofun⟩, fun p' q' o' _ hp' => h.idle_of_done hi hdone hp'⟩
    · rw [ha.key]
      exact List.mem_cons_self
    · rw [ha.key, hcell] at hj
      obtain rfl := h.table.one j i _ hj hi
      rw [ha.entry]

/-- What an entry is when it is taken for a request. -/
def taken (s : Srv) (q : Req) (i : Ix) : Nfsrvcache :=
  { s.ent i with
    rc_state := .inprog, locked := false, wanted := false, repstatus := false, repmbuf := false
    rc_nam := ⟨q.nam, s.dat q.nam⟩, rc_xid := q.xid, rc_proc := q.proc }

/-- `RC_DOIT` for a request that was not looked up before. The reply of the request that had the entry may be freed. -/
theorem Inv.take (h : Inv s hist) (hk : s.key q ∉ asked hist) (hlast : s.lru.getLast? = some i) (hunlocked : (s.ent i).locked = false)
    (hent : s'.ent = Function.update s.ent i (taken s q i)) (hlru : s'.lru = touch i s.lru)
    (hchain : s'.chain = (s.rehash i (NFSRCHASH q.xid)).chain) (hdat : s'.dat = s.dat)
    (hprocs : s'.procs = Function.update s.procs p (.running q)) (hnext : s'.next = s.next)
    (hreplies : ∀ m, s'.replies m = s.replies m ∨
      (s.ent i).repmbuf = true ∧ (s.ent i).rc_un = .repmb m ∧ s'.replies m = none) :
    Inv s' ([.began (s.key q), .looked (s.key q)] ++ hist) := by
  have hcell : s'.cellKey = Function.update s.cellKey i (some (s.key q)) := cellKey_change hent (by rintro ⟨⟩)
  have htable : Table s' (s.key q :: asked hist) := h.table.miss hlast hk hcell hlru hchain
  have hself : s'.procs p = .running q := by rw [hprocs, Function.update_self]
  have hkeyq : s'.key q = s.key q := by rw [Srv.key, Srv.key, hdat]
  have hnone : valids (s.key q) hist = [] := by
    by_contra hc
    exact hk (h.seen _ hc)
  refine h.change (p := p) htable hent (fun _ => rfl) (fun _ => List.mem_cons_of_mem _) hdat (fun p' hp' => ?_)
    (fun _ _ _ _ => h.free_of_unlocked hunlocked) (.inl rfl) ⟨(by rintro ⟨⟩), (by rintro ⟨⟩), (by rintro ⟨⟩)⟩ ?_ ?_ ?_ (by intros; contradiction) ?_
  · rw [hprocs, Function.update_of_ne hp']
    exact ⟨rfl, rfl⟩
  · intro q' o hpend
    rw [hself] at hpend
    cases hpend
    refine ⟨⟨by rw [hkeyq]; exact List.mem_cons_self, fun j hj => ?_, fun _ => by rw [hkeyq]; exact hnone, (by simp)⟩, ?_⟩
    · have hji : j = i := by
        by_contra hne
        rw [hkeyq, hcell, Function.update_of_ne hne] at hj
        exact hk (h.table.known j _ hj)
      rw [hji, hent, Function.update_self]
      rfl
    · intro p' q' o' _ hp' heq
      exact hk (heq ▸ (h.pend p' q' o' hp').known)
  · intro q' o j hlock
    rw [hself] at hlock
    cases hlock
  · intro j m hj hmb hun
    rcases hreplies m with heq | ⟨hmb', hun', -⟩
    · exact heq
    · exact absurd hun (h.other_mbuf hmb' hun' hj hmb)
  · intro m hm
    rcases hreplies m with heq | ⟨-, -, heq⟩
    · rw [heq]
      exact h.fresh m (hnext ▸ hm)
    · exact heq

/-! ### Replies and outcomes -/

theorem Inv.answer (h : Inv s hist) (hp : s.procs p = .replying q i) (time : Int)
    (ha : After s s' s.lru p i { s.ent i with rc_timestamp := time, locked := false, wanted := false } (.finished q)) :
    ∃ r, s.cached (s.ent i) q.xid = some r ∧ nonidempotent q.proc = true ∧ valids (s.key q) hist = [r] ∧ Inv s' ([.answered (s.key q) r] ++ hist) := by
  have hholds := h.hold p q none i (by rw [hp]; rfl)
  have hflags := hholds.reply
  obtain ⟨hdone, hnon, r, hr, hv⟩ := (h.entry i).replied hflags
  have hxid : (s.ent i).rc_xid = q.xid := congrArg Key.xid hholds.key
  have hproc : (s.ent i).rc_proc = q.proc := congrArg Key.proc hholds.key
  refine ⟨r, hxid ▸ hr, hproc ▸ hnon, hholds.key ▸ hv, ?_⟩
  have hcell := cellKey_kept ha.ent (by rw [hdone]; nofun) (hholds.cellKey.trans (congrArg some hholds.key.symm))
  refine h.after ha (h.table.congr hcell ha.lru ha.chain) (fun _ => rfl) (fun _ hk => hk) (fun p' q' o hne hl => ?_)
    (.inr fun p' q' o _ hp' hk => h.idle_of_done hholds.cellKey hdone hp' (hk.symm.trans hholds.key)) (fun hmb => ⟨hmb, rfl⟩)
    ⟨fun _ => ⟨hdone, hnon, r, hr, hv⟩, fun _ _ _ hf => absurd hflags (by rw [hf]; nofun), (h.entry i).kind⟩ nofun nofun
  exact hne (h.holdOne p' p q' q o none i hl (by rw [hp]; rfl))

theorem valids_other {k k' : Key} (r : Option Reply) (hk : k' ≠ k) : valids k (.done k' r :: hist) = valids k hist := by
  cases r with
  | none => rfl
  | some r => simp [valids, Happening.valid, hk]

theorem valids_self (k : Key) (o : Outcome) : valids k (.done k (o.map (·.2)) :: hist) = outcomeReplies (some o) ++ valids k hist := by
  cases o with
  | none => rfl
  | some x => simp [valids, Happening.valid, outcomeReplies]

/-- A request is executed. Before, there was no valid reply. -/
theorem Inv.execute (h : Inv s hist) (hp : s.procs p = .running q) (result : Option (Int × List UInt8)) :
    let o : Outcome := result.map fun x => (x.1, nfsm_reply q x.1 x.2)
    Inv (s.setPc p (.update q o)) ([.done (s.key q) (o.map (·.2))] ++ hist) ∧ (nonidempotent q.proc = true → valids (s.key q) hist = []) := by
  intro o
  have hrun : (s.procs p).pending = some (q, none) := by rw [hp]; rfl
  have hpend := h.pend p q none hrun
  have hprocs : ∀ p', p' ≠ p → (s.setPc p (.update q o)).procs p' = s.procs p' := fun p' hp' => Function.update_of_ne hp' ..
  have hself : (s.setPc p (.update q o)).procs p = .update q o := Function.update_self ..
  -- An entry that is done is another request's.
  have hdone : ∀ i, (s.ent i).rc_state = .done → s.key q ≠ (s.ent i).key := by
    intro i hi hk
    have hstate := hpend.inprog i (cellKey_some.2 ⟨by rw [hi]; nofun, hk.symm⟩)
    rw [hi] at hstate
    cases hstate
  have hlock : ∀ p', ((s.setPc p (.update q o)).procs p').lock = (s.procs p').lock := by
    intro p'
    by_cases hpp : p' = p
    · rw [hpp, hself, hp]
      rfl
    · rw [hprocs p' hpp]
  have hkeep : ∀ p' q' o', p' ≠ p → (s.procs p').pending = some (q', o') → s.key q ≠ s.key q' :=
    fun p' q' o' hpp hp' hk => hpp (h.pendOne p p' q q' none o' hrun hp' hk).symm
  refine ⟨⟨h.table.congr rfl rfl rfl, fun i => ⟨fun hf => ?_, fun hd hn hl hf => ?_, (h.entry i).kind⟩, h.apart, h.fresh, fun p' q' o' hp' => ?_,
    fun p1 p2 q1 q2 o1 o2 hp1 hp2 hk => ?_, fun p' q' o' i hp' => ?_, fun p1 p2 q1 q2 o1 o2 i hp1 hp2 => ?_, fun k hk => ?_⟩, hpend.outcome⟩
  · obtain ⟨hd, hn, r, hr, hv⟩ := (h.entry i).replied hf
    exact ⟨hd, hn, r, hr, (valids_other _ (hdone i hd)).trans hv⟩
  · exact (valids_other _ (hdone i hd)).trans ((h.entry i).failed hd hn hl hf)
  · by_cases hpp : p' = p
    · rw [hpp, hself] at hp'
      cases hp'
      refine ⟨hpend.known, hpend.inprog, fun hn => ?_, fun st r hr hst => ?_⟩
      · have hnone : valids (s.key q) hist = [] := hpend.outcome hn
        have hout : valids (s.key q) (.done (s.key q) (o.map (·.2)) :: hist) = outcomeReplies (some o) := by
          rw [valids_self, hnone, List.append_nil]
        exact hout
      · obtain ⟨x, -, hx⟩ := Option.map_eq_some_iff.1 (Option.some.inj hr)
        obtain ⟨rfl, rfl⟩ := Prod.mk.inj hx
        exact if_pos (.inr hst)
    · rw [hprocs p' hpp] at hp'
      have hok := h.pend p' q' o' hp'
      exact ⟨hok.known, hok.inprog, fun hn => (valids_other _ (hkeep p' q' o' hpp hp')).trans (hok.outcome hn), hok.reply⟩
  · by_cases h1 : p1 = p
    · by_cases h2 : p2 = p
      · rw [h1, h2]
      · rw [h1, hself] at hp1
        cases hp1
        rw [hprocs p2 h2] at hp2
        exact absurd hk (hkeep p2 q2 o2 h2 hp2)
    · rw [hprocs p1 h1] at hp1
      by_cases h2 : p2 = p
      · rw [h2, hself] at hp2
        cases hp2
        exact absurd hk.symm (hkeep p1 q1 o1 h1 hp1)
      · rw [hprocs p2 h2] at hp2
        exact h.pendOne p1 p2 q1 q2 o1 o2 hp1 hp2 hk
  · rw [hlock] at hp'
    have hok := h.hold p' q' o' i hp'
    refine ⟨hok.locked, hok.key, hok.done, ?_⟩
    have hother : valids (s.key q') (.done (s.key q) (o.map (·.2)) :: hist) = valids (s.key q') hist :=
      valids_other _ (hok.key ▸ hdone i hok.done)
    have hreply := hok.reply
    cases o' with
    | none => exact hreply
    | some r => exact ⟨hreply.1, hreply.2.1, hother.trans hreply.2.2⟩
  · rw [hlock] at hp1 hp2
    exact h.holdOne p1 p2 q1 q2 o1 o2 i hp1 hp2
  · by_cases hkq : s.key q = k
    · exact hkq ▸ hpend.known
    · exact h.seen k (fun hc => hk ((valids_other _ hkq).trans hc))

theorem Inv.noting (h : Inv s hist) (hp : s.procs p = .update q o) (hi : s.cellKey i = some (s.key q)) :
    (s.ent i).rc_state = .inprog ∧ (s.ent i).key = s.key q ∧ ((s.ent i).repstatus || (s.ent i).repmbuf) = false ∧
    (nonidempotent q.proc = true → valids (s.key q) hist = outcomeReplies (some o)) ∧
    ∀ p' q' o', p' ≠ p → (s.procs p').pending = some (q', o') → (s.ent i).key ≠ s.key q' := by
  have hpend : (s.procs p).pending = some (q, some o) := by rw [hp]; rfl
  have hok := h.pend p q (some o) hpend
  have hkey := (cellKey_some.1 hi).2
  refine ⟨hok.inprog i hi, hkey, (h.entry i).noFlags (by rw [hok.inprog i hi]; nofun), hok.outcome, fun p' q' o' hne hp' hk => ?_⟩
  exact hne (h.pendOne p p' q q' (some o) o' hpend hp' (hkey.symm.trans hk)).symm

/-- The outcome is noted, and the lock given up. -/
theorem Inv.note (h : Inv s hist) (hp : s.procs p = .update q o) (hi : s.cellKey i = some (s.key q))
    (hunlocked : (s.ent i).locked = false) (time : Int) : Inv (s.note p q o i time) hist := by
  obtain ⟨hinprog, hkey, hflags, hvalids, hothers⟩ := h.noting hp hi
  have hproc : (s.ent i).rc_proc = q.proc := congrArg Key.proc hkey
  obtain ⟨hstatus, hmbuf⟩ := Bool.or_eq_false_iff.1 hflags
  -- The outcomes that leave no reply in the entry.
  have hplain : ∀ t s', After s s' s.lru p i { s.ent i with rc_state := .done, rc_timestamp := t, locked := false, wanted := false } (.finished q) →
      (nonidempotent q.proc = true → valids (s.key q) hist = []) → Inv s' hist := by
    intro t s' ha hnone
    have hcell := cellKey_kept ha.ent nofun (hi.trans (congrArg some hkey.symm))
    refine h.after ha (h.table.congr hcell ha.lru ha.chain) (fun _ => rfl) (fun _ hk => hk) (fun _ _ _ _ => h.free_of_unlocked hunlocked)
      (.inr hothers) (fun hmb => ⟨hmb, rfl⟩) ⟨fun hf => absurd hf (Bool.eq_false_iff.1 hflags), fun _ hn _ _ => ?_, (h.entry i).kind⟩ nofun nofun
    exact hkey ▸ hnone (hproc ▸ hn)
  unfold Srv.note
  cases o with
  | none =>
    exact hplain 0 _ (after_release s p i _ _) hvalids
  | some x =>
    obtain ⟨st, r⟩ := x
    simp only
    by_cases hn : nonidempotent q.proc = true
    · rw [if_pos hn]
      by_cases hst : repliesstatus q.proc = true
      · rw [if_pos hst]
        have ha := after_release s p i { s.ent i with locked := true, rc_state := .done, rc_timestamp := time, rc_un := .repstat st, repstatus := true }
          (.finished q)
        have hcell := cellKey_kept ha.ent nofun (hi.trans (congrArg some hkey.symm))
        have hr : r = nfs_rephead (s.ent i).rc_xid st := by
          rw [show (s.ent i).rc_xid = q.xid from congrArg Key.xid hkey]
          exact (h.pend p q (some (some (st, r))) (by rw [hp]; rfl)).reply st r rfl hst
        refine h.after ha (h.table.congr hcell ha.lru ha.chain) (fun _ => rfl) (fun _ hk => hk) (fun _ _ _ _ => h.free_of_unlocked hunlocked)
          (.inr hothers) (fun hmb => absurd hmb (Bool.eq_false_iff.1 hmbuf)) ⟨fun _ => ⟨rfl, hproc ▸ hn, r, ?_, ?_⟩, nofun, ?_⟩ nofun nofun
        · rw [hr]
          rfl
        · exact (congrArg (valids · hist) hkey).trans (hvalids hn)
        · exact fun hmb => absurd hmb (Bool.eq_false_iff.1 hmbuf)
      · rw [if_neg hst]
        have ha := after_set s p i { s.ent i with locked := true, rc_state := .done, rc_timestamp := time } (.saving q st r i)
        have hcell := cellKey_kept ha.ent nofun (hi.trans (congrArg some hkey.symm))
        refine h.after ha (h.table.congr hcell ha.lru ha.chain) (fun _ => rfl) (fun _ hk => hk) (fun _ _ _ _ => h.free_of_unlocked hunlocked)
          (.inr hothers) (fun hmb => ⟨hmb, rfl⟩) ⟨fun hf => absurd hf (Bool.eq_false_iff.1 hflags), fun _ _ hl => (nomatch hl), (h.entry i).kind⟩
          nofun ?_
        intro q' o' j hlock
        cases hlock
        refine ⟨rfl, by rw [ha.entry], by rw [ha.entry, ha.key]; exact hkey, by rw [ha.entry], hn, by rw [ha.entry]; exact hflags, ?_⟩
        rw [ha.key]
        exact hvalids hn
    · rw [if_neg hn]
      exact hplain time _ (after_release s p i _ _) fun hc => absurd hc hn

/-- The copy of a reply is cached. -/
theorem Inv.save (h : Inv s hist) {st : Int} {r : Reply} (hp : s.procs p = .saving q st r i) : Inv (s.save p q r i) hist := by
  have hlock : (s.procs p).lock = some (q, some r, i) := by rw [hp]; rfl
  have hholds := h.hold p q (some r) i hlock
  obtain ⟨hn, hflags, hvalids⟩ := hholds.reply
  have hproc : (s.ent i).rc_proc = q.proc := congrArg Key.proc hholds.key
  have hstatus := (Bool.or_eq_false_iff.1 hflags).1
  have ha := after_release { s with replies := Function.update s.replies s.next (some r), next := s.next + 1 } p i
    { s.ent i with rc_un := .repmb s.next, repmbuf := true } (.finished q)
  have hs' : s.save p q r i = ((({ s with replies := Function.update s.replies s.next (some r), next := s.next + 1 } : Srv).setEnt i
    { s.ent i with rc_un := .repmb s.next, repmbuf := true }).release i).setPc p (.finished q) := rfl
  rw [← hs'] at ha
  generalize s.save p q r i = s' at ha ⊢
  have hent : s'.ent = Function.update s.ent i _ := ha.ent
  have hcell := cellKey_kept hent (by simp [hholds.done]) (hholds.cellKey.trans (congrArg some hholds.key.symm))
  -- A chain that is cached elsewhere is not the new one.
  have hold : ∀ j m, j ≠ i → (s.ent j).repmbuf = true → (s.ent j).rc_un = .repmb m → m ≠ s.next := by
    rintro j m - hmb hm rfl
    obtain ⟨m', r', hm', hr'⟩ := h.live hmb
    obtain rfl := RcUn.repmb.inj (hm.symm.trans hm')
    rw [h.fresh _ (Nat.le_refl _)] at hr'
    cases hr'
  refine h.change (h.table.congr hcell ha.lru ha.chain) hent (fun _ => rfl) (fun _ hk => hk) ha.dat ha.others (fun p' q' o hne hl => ?_)
    (.inr fun p' q' o _ hp' hk => h.idle_of_done hholds.cellKey hholds.done hp' (hk.symm.trans hholds.key))
    ⟨fun _ => ⟨hholds.done, hproc ▸ hn, r, ?_, ?_⟩, fun _ _ _ hf => ?_, fun _ => hstatus⟩ ?_ ?_ ?_ ?_ ?_
  · exact hne (h.holdOne p' p q' q o (some r) i hl hlock)
  · simp only [Srv.cached, hstatus]
    rw [ha.replies]
    exact Function.update_self ..
  · exact (congrArg (valids · hist) hholds.key).trans hvalids
  · simp at hf
  · rw [ha.self]
    nofun
  · rw [ha.self]
    nofun
  · intro j m hj hmb hm
    rw [ha.replies]
    exact Function.update_of_ne (hold j m hj hmb hm) ..
  · rintro j m hj - hm hmb hun
    obtain rfl := RcUn.repmb.inj hm
    exact hold j _ hj hmb hun rfl
  · intro m hm
    have hnext : s'.next = s.next + 1 := ha.next
    rw [hnext] at hm
    have hfresh := h.fresh m (by omega)
    rw [ha.replies]
    exact (Function.update_of_ne (by omega) ..).trans hfresh

/-! ### Steps that change no entry -/

theorem nam_of_pending {o : Option Outcome} (h : pc.pending = some (q, o)) : pc.nam = some q.nam := by
  cases pc <;> cases h <;> rfl

theorem nam_of_lock {o : Option Reply} (h : pc.lock = some (q, o, i)) : pc.nam = some q.nam := by
  cases pc <;> cases h <;> rfl

/-- A process goes on, or sleeps, and no entry but its `RC_WANTED` changes. -/
theorem Inv.move {hist' : List Happening} (h : Inv s hist) (htable : Table s' (asked hist')) (hents : ∀ i, SameEnt (s.ent i) (s'.ent i))
    (hvalids : ∀ k, valids k hist' = valids k hist) (hasked : ∀ k ∈ asked hist, k ∈ asked hist')
    (hprocs : s'.procs = Function.update s.procs p pc) (hpend : pc.pending = (s.procs p).pending ∨ pc.pending = none)
    (hlock : pc.lock = (s.procs p).lock) (hkeys : ∀ p' q', (s.procs p').nam = some q'.nam → s'.key q' = s.key q')
    (hreplies : s'.replies = s.replies) (hnext : s'.next = s.next) : Inv s' hist' := by
  refine h.same htable hents hvalids hasked ?_ ?_ ?_ hreplies hnext
  · intro p'
    rw [hprocs]
    by_cases hpp : p' = p
    · subst hpp
      rw [Function.update_self]
      exact hpend
    · rw [Function.update_of_ne hpp]
      exact .inl rfl
  · intro p'
    rw [hprocs]
    by_cases hpp : p' = p
    · subst hpp
      rw [Function.update_self]
      exact hlock
    · rw [Function.update_of_ne hpp]
  · rintro p' q' (⟨o, hp'⟩ | ⟨o, i, hp'⟩)
    · exact hkeys p' q' (nam_of_pending hp')
    · exact hkeys p' q' (nam_of_lock hp')

theorem key_update {m : Nat} {addr : Sockaddr} (hdat : s'.dat = Function.update s.dat m addr) (hm : q'.nam ≠ m) :
    s'.key q' = s.key q' := by
  rw [Srv.key, Srv.key, hdat, Function.update_of_ne hm]

theorem sleep_ents (s : Srv) (p : Nat) (i : Ix) (pc : Pc) (j : Ix) : SameEnt (s.ent j) ((s.sleep p i pc).ent j) := by
  by_cases hj : j = i
  · subst hj
    exact ⟨true, (s.ent j).rc_timestamp, Function.update_self ..⟩
  · exact ⟨_, _, Function.update_of_ne hj ..⟩

/-! ### Any step -/

/-- What a step keeps. -/
def Keeps (r : Except Stop (Srv × List Happening)) (hist : List Happening) : Prop :=
  ∃ s' new, r = .ok (s', new) ∧ Inv s' (new ++ hist) ∧ Orderly (new ++ hist)

theorem hit_eq (time : Int) :
    s.hit p q i time = match (s.ent i).rc_state with
      | .unused => .error .panic
      | .inprog => .ok ((((s.put_at_head i).setEnt i { s.ent i with locked := true }).release i).setPc p (.finished q), [.dropped (s.key q)])
      | .done =>
        if time - (s.ent i).rc_timestamp < RC_DELAY then
          .ok ((((s.put_at_head i).setEnt i { s.ent i with locked := true }).release i).setPc p (.finished q), [.dropped (s.key q)])
        else if (s.ent i).repstatus || (s.ent i).repmbuf then
          .ok (((s.put_at_head i).setEnt i { s.ent i with locked := true }).setPc p (.replying q i), [])
        else .ok ((((s.put_at_head i).setEnt i { s.ent i with locked := true, rc_state := .inprog }).release i).setPc p (.running q),
          [.began (s.key q)]) := by
  unfold Srv.hit
  cases hstate : (s.ent i).rc_state <;>
    simp only [Srv.setEnt, Srv.put_at_head, Function.update_self, Function.update_idem, hstate]

theorem Inv.getcache (h : Inv s hist) (horder : Orderly hist) (hp : s.procs p = .search q) (hok : s.Searchable (asked hist) q) (time : Int) :
    Keeps ((s.getcache p q time).map fun r => (r.1, r.2 ++ [.looked (s.key q)])) hist := by
  unfold Srv.getcache
  cases hi : s.lookup q with
  | some i =>
    have hcell := lookup_some h.table hok.intact hi
    obtain ⟨hused, hkey⟩ := cellKey_some.1 hcell
    simp only
    by_cases hl : (s.ent i).locked = true
    · rw [if_pos hl]
      refine ⟨_, _, rfl, ?_, trivial, horder⟩
      have hents := sleep_ents s p i (.hitWait q i)
      exact h.move (h.table.ask hcell (cellKey_same hents) rfl rfl) hents (fun _ => rfl) (fun _ => List.mem_cons_of_mem _) rfl (.inr rfl)
        (by rw [hp]; rfl) (fun _ _ _ => rfl) rfl rfl
    · rw [if_neg hl]
      have hunlocked := Bool.eq_false_of_not_eq_true hl
      rw [hit_eq]
      have hdrop := h.drop hcell hunlocked hp (after_release (s.put_at_head i) p i { s.ent i with locked := true } _).of_head
      split
      · exact absurd ‹_› hused
      · exact ⟨_, _, rfl, hdrop, trivial, trivial, horder⟩
      · rename_i hstate
        by_cases htime : time - (s.ent i).rc_timestamp < RC_DELAY
        · rw [if_pos htime]
          exact ⟨_, _, rfl, hdrop, trivial, trivial, horder⟩
        · rw [if_neg htime]
          by_cases hflags : ((s.ent i).repstatus || (s.ent i).repmbuf) = true
          · rw [if_pos hflags]
            exact ⟨_, _, rfl, h.reply hcell hunlocked hflags (after_set (s.put_at_head i) p i _ _).of_head, trivial, horder⟩
          · rw [if_neg hflags]
            obtain ⟨hinv, hnone⟩ := h.redo hcell hunlocked hstate (Bool.eq_false_of_not_eq_true hflags)
              (after_release (s.put_at_head i) p i { s.ent i with locked := true, rc_state := .inprog } _).of_head
            exact ⟨_, _, rfl, hinv, hnone, trivial, horder⟩
  | none =>
    have hno := lookup_none h.table hok.intact hok.inet hi
    -- A request that was looked up before would still have its entry.
    have hk : s.key q ∉ asked hist := by
      intro hk
      rcases h.table.kept _ hk with ⟨j, hj, -⟩ | hmany
      · exact hno j hj
      · exact absurd (hok.recent hk) (Nat.not_lt.2 hmany)
    have hnone : valids (s.key q) hist = [] := by
      by_contra hc
      exact hk (h.seen _ hc)
    simp only
    cases hlast : s.lru.getLast? with
    | none =>
      have hlen := h.table.length
      rw [List.getLast?_eq_none_iff.1 hlast] at hlen
      cases hlen
    | some i =>
      have hunlocked := hok.unlocked hno i hlast
      simp only [Srv.miss, hunlocked]
      by_cases hmb : (s.ent i).repmbuf = true
      · obtain ⟨m, r, hun, hr⟩ := h.live hmb
        have hfree : ((s.reuse q i).setPc p (.running q)).freem (s.ent i).rc_un =
            .ok { (s.reuse q i).setPc p (.running q) with replies := Function.update s.replies m none } := by
          rw [hun]
          unfold Srv.freem
          simp only
          rw [show ((s.reuse q i).setPc p (.running q)).replies m = some r from hr]
          rfl
        simp only [hmb, hfree]
        refine ⟨_, _, rfl, h.take hk hlast hunlocked rfl rfl rfl rfl rfl rfl fun m' => ?_, fun _ => hnone, trivial, horder⟩
        by_cases hm : m' = m
        · subst hm
          exact .inr ⟨hmb, hun, Function.update_self ..⟩
        · exact .inl (Function.update_of_ne hm ..)
      · simp only [Bool.eq_false_of_not_eq_true hmb]
        exact ⟨_, _, rfl, h.take hk hlast hunlocked rfl rfl rfl rfl rfl rfl fun _ => .inl rfl, fun _ => hnone, trivial, horder⟩

theorem Inv.updatecache (h : Inv s hist) (hp : s.procs p = .update q o) (hok : s.Comparable q) (time : Int) :
    Inv (s.updatecache p q o time) hist := by
  unfold Srv.updatecache
  cases hi : s.lookup q with
  | none =>
    exact h.move (h.table.congr rfl rfl rfl) (fun _ => .refl _) (fun _ => rfl) (fun _ hk => hk) rfl (.inr rfl) (by rw [hp]; rfl)
      (fun _ _ _ => rfl) rfl rfl
  | some i =>
    have hcell := lookup_some h.table hok.intact hi
    simp only
    by_cases hl : (s.ent i).locked = true
    · rw [if_pos hl]
      have hents := sleep_ents s p i (.updWait q o i)
      exact h.move (h.table.congr (cellKey_same hents) rfl rfl) hents (fun _ => rfl) (fun _ hk => hk) rfl (.inl (by rw [hp]; rfl))
        (by rw [hp]; rfl) (fun _ _ _ => rfl) rfl rfl
    · rw [if_neg hl]
      exact h.note hp hcell (Bool.eq_false_of_not_eq_true hl) time

/-- A step that the process cannot take does nothing. -/
theorem Keeps.idle (h : Inv s hist) (horder : Orderly hist) : Keeps (.ok (s, [])) hist := ⟨s, [], rfl, h, horder⟩

theorem step_keeps (h : Inv s hist) (horder : Orderly hist) {ev : Event} (hallowed : s.Allowed ev)
    (hmeets : s.Meets (asked hist) ev) : Keeps (s.step ev) hist := by
  cases ev with
  | receive p m addr xid proc =>
    obtain ⟨hidle, hfree⟩ := hallowed
    refine ⟨_, [], rfl, ?_, horder⟩
    refine h.move (p := p) (h.table.congr rfl rfl rfl) (fun _ => .refl _) (fun _ => rfl) (fun _ hk => hk) rfl (.inr rfl) (by rw [hidle]; rfl)
      (fun p' q' hnam => key_update rfl ?_) rfl rfl
    rintro rfl
    exact hfree p' hnam
  | reuse m addr =>
    refine ⟨_, [], rfl, ?_, horder⟩
    refine h.same (h.table.congr rfl rfl rfl) (fun _ => .refl _) (fun _ => rfl) (fun _ hk => hk) (fun _ => .inl rfl) (fun _ => rfl) ?_ rfl rfl
    rintro p' q' hnam
    refine key_update rfl ?_
    rintro rfl
    refine hallowed p' ?_
    rcases hnam with ⟨o, hp'⟩ | ⟨o, i, hp'⟩
    · exact nam_of_pending hp'
    · exact nam_of_lock hp'
  | getcache p time =>
    cases hp : s.procs p with
    | search q =>
      simp only [Srv.step, hp]
      exact h.getcache horder hp (hmeets.1 q hp) time
    | missAwake q i => exact absurd hp (hmeets.2 q i)
    | _ =>
      simp only [Srv.step, hp]
      exact .idle h horder
  | answer p time =>
    cases hp : s.procs p with
    | replying q i =>
      obtain ⟨r, hr, hn, hv, hinv⟩ := h.answer hp time (after_release s p i { s.ent i with rc_timestamp := time } _)
      simp only [Srv.step, hp, Srv.answer, hr]
      exact ⟨_, _, rfl, hinv, ⟨hn, hv⟩, horder⟩
    | _ =>
      simp only [Srv.step, hp]
      exact .idle h horder
  | execute p result =>
    cases hp : s.procs p with
    | running q =>
      obtain ⟨hinv, hnone⟩ := h.execute hp result
      simp only [Srv.step, hp]
      exact ⟨_, _, rfl, hinv, hnone, horder⟩
    | _ =>
      simp only [Srv.step, hp]
      exact .idle h horder
  | updatecache p time =>
    cases hp : s.procs p with
    | update q o =>
      simp only [Srv.step, hp]
      exact ⟨_, [], rfl, h.updatecache hp (hmeets q o hp) time, horder⟩
    | saving q st r i =>
      simp only [Srv.step, hp]
      exact ⟨_, [], rfl, h.save hp, horder⟩
    | _ =>
      simp only [Srv.step, hp]
      exact .idle h horder
  | finish p =>
    cases hp : s.procs p with
    | finished q =>
      simp only [Srv.step, hp]
      refine ⟨_, [], rfl, ?_, horder⟩
      exact h.move (h.table.congr rfl rfl rfl) (fun _ => .refl _) (fun _ => rfl) (fun _ hk => hk) rfl (.inr rfl) (by rw [hp]; rfl)
        (fun _ _ _ => rfl) rfl rfl
    | _ =>
      simp only [Srv.step, hp]
      exact .idle h horder

/-! ### Locked entries -/

theorem update_key (hk : e'.key = (s.ent j).key) (i : Ix) : (Function.update s.ent j e' i).key = (s.ent i).key := by
  by_cases hi : i = j
  · rw [hi, Function.update_self]
    exact hk
  · rw [Function.update_of_ne hi]

theorem release_key (s : Srv) (j i : Ix) : ((s.release j).ent i).key = (s.ent i).key := by
  rw [release_ent]
  exact update_key (by rfl) i

theorem hit_key {time : Int} (h : s.hit p q j time = .ok (s', new)) (i : Ix) : (s'.ent i).key = (s.ent i).key := by
  have hset : ∀ st : RcState, (((s.put_at_head j).setEnt j { s.ent j with locked := true, rc_state := st }).ent i).key = (s.ent i).key :=
    fun st => update_key (by rfl) i
  rw [hit_eq] at h
  split at h
  · cases h
  · cases h
    exact (release_key ..).trans (hset _)
  · split at h
    · cases h
      exact (release_key ..).trans (hset _)
    · split at h
      · cases h
        exact hset _
      · cases h
        exact (release_key ..).trans (hset _)

theorem miss_key (h : s.miss p q j = .ok (s', new)) (i : Ix) (hi : (s.ent i).locked = true) :
    (s'.ent i).key = (s.ent i).key := by
  unfold Srv.miss at h
  simp only at h
  by_cases hl : (s.ent j).locked = true
  · rw [if_pos hl] at h
    cases h
    exact update_key (by rfl) i
  · rw [if_neg hl] at h
    have hij : i ≠ j := by
      rintro rfl
      exact hl hi
    have hother : ((s.reuse q j).setPc p (.running q)).ent i = s.ent i := Function.update_of_ne hij ..
    split at h
    · unfold Srv.freem at h
      split at h
      · cases h
      · split at h
        · cases h
        · cases h
          exact congrArg Nfsrvcache.key hother
    · cases h
      exact congrArg Nfsrvcache.key hother

theorem note_key (s : Srv) (p : Nat) (q : Req) (o : Outcome) (j : Ix) (time : Int) (i : Ix) : ((s.note p q o j time).ent i).key = (s.ent i).key := by
  have hset : ∀ e : Nfsrvcache, e.key = (s.ent j).key → ((((s.setEnt j e).release j).setPc p (.finished q)).ent i).key = (s.ent i).key :=
    fun e he => (release_key ..).trans (update_key he i)
  unfold Srv.note
  cases o with
  | none => exact hset _ rfl
  | some x =>
    simp only
    split
    · split
      · exact hset _ rfl
      · exact update_key (by rfl) i
    · exact hset _ rfl

/-- A locked entry is not taken for another request. -/
theorem step_key {ev : Event} (h : s.step ev = .ok (s', new)) (i : Ix) (hi : (s.ent i).locked = true) :
    (s'.ent i).key = (s.ent i).key := by
  cases ev with
  | receive p m addr xid proc =>
    cases h
    rfl
  | reuse m addr =>
    cases h
    rfl
  | getcache p time =>
    cases hp : s.procs p with
    | search q =>
      simp only [Srv.step, hp, Srv.getcache] at h
      cases hlook : s.lookup q with
      | some j =>
        simp only [hlook] at h
        by_cases hl : (s.ent j).locked = true
        · rw [if_pos hl] at h
          cases h
          exact update_key (by rfl) i
        · rw [if_neg hl] at h
          cases hhit : s.hit p q j time with
          | error e =>
            rw [hhit] at h
            cases h
          | ok r =>
            rw [hhit] at h
            cases h
            exact hit_key hhit i
      | none =>
        simp only [hlook] at h
        cases hlast : s.lru.getLast? with
        | none =>
          simp only [hlast] at h
          cases h
        | some j =>
          simp only [hlast] at h
          cases hmiss : s.miss p q j with
          | error e =>
            rw [hmiss] at h
            cases h
          | ok r =>
            rw [hmiss] at h
            cases h
            exact miss_key hmiss i hi
    | missAwake q j =>
      simp only [Srv.step, hp] at h
      exact miss_key h i hi
    | _ =>
      simp only [Srv.step, hp] at h
      cases h
      rfl
  | answer p time =>
    cases hp : s.procs p with
    | replying q j =>
      simp only [Srv.step, hp, Srv.answer] at h
      split at h
      · cases h
      · cases h
        exact (release_key ..).trans (update_key (by rfl) i)
    | _ =>
      simp only [Srv.step, hp] at h
      cases h
      rfl
  | execute p result =>
    simp only [Srv.step] at h
    split at h <;> cases h <;> rfl
  | updatecache p time =>
    cases hp : s.procs p with
    | update q o =>
      simp only [Srv.step, hp, Srv.updatecache] at h
      cases h
      split
      · rfl
      · split
        · exact update_key (by rfl) i
        · exact note_key ..
    | saving q st r j =>
      simp only [Srv.step, hp, Srv.save] at h
      cases h
      exact (release_key ..).trans (update_key (by rfl) i)
    | _ =>
      simp only [Srv.step, hp] at h
      cases h
      rfl
  | finish p =>
    simp only [Srv.step] at h
    split at h <;> cases h <;> rfl

end Steps

/-! ## The cache works -/

section Runs
variable {s : Srv} {hist : List Happening}

theorem boot_inv (hidle : ∀ p, s.procs p = .idle) (hreplies : ∀ m, s.replies m = none) : Inv s.initcache [] := by
  have hcell : ∀ i, s.initcache.cellKey i = none := fun i => if_pos rfl
  have hno : ∀ i k, s.initcache.cellKey i ≠ some k := fun i k hk => nomatch (hcell i).symm.trans hk
  have hproc : ∀ p, s.initcache.procs p = .idle := hidle
  refine ⟨⟨List.nodup_reverse.2 (List.nodup_finRange _), fun i => List.mem_reverse.2 (List.mem_finRange i), fun i g => ?_, fun _ => List.nodup_nil,
    fun i _ k hk => absurd hk (hno i k), fun i k hk => absurd hk (hno i k), nofun⟩, fun i => ⟨nofun, nofun, nofun⟩, nofun, fun m _ => hreplies m,
    fun p q o hp => ?_, fun p _ q _ o _ hp => ?_, fun p q o i hp => ?_, fun p _ q _ o _ i hp => ?_, fun k hk => absurd rfl hk⟩
  · exact iff_of_false List.not_mem_nil fun ⟨k, hk, _⟩ => hno i k hk
  · rw [hproc] at hp
    cases hp
  · rw [hproc] at hp
    cases hp
  · rw [hproc] at hp
    cases hp
  · rw [hproc] at hp
    cases hp

theorem reached_inv (h : Reached s hist) : Inv s hist ∧ Orderly hist := by
  induction h with
  | boot s hidle hreplies => exact ⟨boot_inv hidle hreplies, trivial⟩
  | step s s' hist new ev _ hallowed hmeets hstep ih =>
    obtain ⟨t, new', hok, hinv, horder⟩ := step_keeps ih.1 ih.2 hallowed hmeets
    obtain ⟨rfl, rfl⟩ := Prod.mk.inj (Except.ok.inj (hok.symm.trans hstep))
    exact ⟨hinv, horder⟩

theorem Orderly.once {newer older : List Happening} {h : Happening} (ho : Orderly (newer ++ h :: older)) : Once h older := by
  induction newer with
  | nil => exact ho.1
  | cons h' newer ih => exact ih ho.2

/-- The cache in a state of a run. -/
structure Sound (s : Srv) (hist : List Happening) : Prop where
  once : ∀ newer h older, hist = newer ++ h :: older → Once h older
  one : ∀ i j, (s.ent i).rc_state ≠ .unused → (s.ent j).rc_state ≠ .unused → (s.ent i).key = (s.ent j).key → i = j
  lru : ∀ i, s.lru.count i = 1
  chain : ∀ i h, (s.chain h).count i = if (s.ent i).rc_state ≠ .unused ∧ h = NFSRCHASH (s.ent i).rc_xid then 1 else 0
  reply : ∀ i, (s.ent i).repmbuf = true → ∃ m r, (s.ent i).rc_un = .repmb m ∧ s.replies m = some r ∧
    ∀ j, j ≠ i → (s.ent j).repmbuf = true → (s.ent j).rc_un ≠ .repmb m

theorem Inv.sound (h : Inv s hist) (horder : Orderly hist) : Sound s hist := by
  refine ⟨?_, fun i j hi hj hk => h.table.one i j _ (cellKey_some.2 ⟨hi, hk⟩) (cellKey_some.2 ⟨hj, rfl⟩), fun i => ?_, fun i g => ?_, fun i hi => ?_⟩
  · rintro newer ev older rfl
    exact horder.once
  · exact List.count_eq_one_of_mem h.table.nodup (h.table.all i)
  · have hiff : i ∈ s.chain g ↔ (s.ent i).rc_state ≠ .unused ∧ g = NFSRCHASH (s.ent i).rc_xid := by
      rw [h.table.chain i g]
      constructor
      · rintro ⟨k, hk, rfl⟩
        obtain ⟨hused, rfl⟩ := cellKey_some.1 hk
        exact ⟨hused, rfl⟩
      · rintro ⟨hused, rfl⟩
        exact ⟨_, cellKey_some.2 ⟨hused, rfl⟩, rfl⟩
    by_cases hin : i ∈ s.chain g
    · rw [if_pos (hiff.1 hin)]
      exact List.count_eq_one_of_mem (h.table.chains g) hin
    · rw [if_neg fun hc => hin (hiff.2 hc)]
      exact List.count_eq_zero_of_not_mem hin
  · obtain ⟨m, r, hun, hr⟩ := h.live hi
    exact ⟨m, r, hun, hr, fun j hj hmb => h.other_mbuf hi hun hj hmb⟩

/-- In every run whose steps meet the condition the cache is sound, no step panics or touches what is free, and no step takes an entry
that is locked. -/
theorem srvcache_runs (h : Reached s hist) : Sound s hist ∧
    ∀ ev, s.Allowed ev → s.Meets (asked hist) ev → ∃ s' new, s.step ev = .ok (s', new) ∧
      ∀ i, (s.ent i).locked = true → (s'.ent i).key = (s.ent i).key := by
  obtain ⟨hinv, horder⟩ := reached_inv h
  refine ⟨hinv.sound horder, fun ev hallowed hmeets => ?_⟩
  obtain ⟨s', new, hstep, -⟩ := step_keeps hinv horder hallowed hmeets
  exact ⟨s', new, hstep, step_key hstep⟩

end Runs

/-! ## A file that is removed twice -/

def REMOVE : Proc := ⟨10, by decide⟩

def cold : Srv where
  ent := fun _ => ⟨.unused, false, false, false, false, ⟨0, .other 0⟩, 0, ⟨0, by decide⟩, 0, .repstat 0⟩
  lru := []
  chain := fun _ => []
  dat := fun _ => .other 0
  replies := fun _ => none
  next := 0
  procs := fun _ => .idle

/-- A step of a run, unless the server stops. -/
def go (x : Srv × List Happening) (ev : Event) : Srv × List Happening :=
  match x.1.step ev with
  | .ok (s', new) => (s', new ++ x.2)
  | .error _ => x

def after (evs : List Event) : Srv × List Happening := evs.foldl go (cold.initcache, [])

theorem Reached.go {x : Srv × List Happening} (h : Reached x.1 x.2) (ev : Event) (hallowed : x.1.Allowed ev)
    (hmeets : x.1.Meets (asked x.2) ev) : Reached (go x ev).1 (go x ev).2 := by
  unfold Srvcache.go
  split
  · rename_i s' new hstep
    exact .step x.1 s' x.2 new ev h hallowed hmeets hstep
  · exact h

/-- A request from the host 1 comes with the mbuf 0 and is executed; the mbuf is used for the host 2 then, and the request comes again. -/
def remove : List Event :=
  [.receive 0 0 (.inet 1) 5 REMOVE, .getcache 0 100, .execute 0 (some (0, [])), .updatecache 0 100, .finish 0, .reuse 0 (.inet 2),
    .receive 1 1 (.inet 1) 5 REMOVE]

theorem remove_reached : Reached (after remove).1 (after remove).2 := by
  have h0 : Reached (after []).1 (after []).2 := .boot cold (fun _ => rfl) fun _ => rfl
  have h1 : Reached (after (remove.take 1)).1 (after (remove.take 1)).2 := h0.go (.receive 0 0 (.inet 1) 5 REMOVE) ⟨rfl, nofun⟩ trivial
  have h2 : Reached (after (remove.take 2)).1 (after (remove.take 2)).2 := by
    refine h1.go (.getcache 0 100) trivial ⟨fun q hq => ?_, nofun⟩
    cases hq
    exact ⟨⟨⟨1, rfl⟩, fun i hi => absurd rfl hi⟩, nofun, fun _ _ _ => rfl⟩
  have h3 : Reached (after (remove.take 3)).1 (after (remove.take 3)).2 := h2.go (.execute 0 (some (0, []))) trivial trivial
  have h4 : Reached (after (remove.take 4)).1 (after (remove.take 4)).2 := by
    refine h3.go (.updatecache 0 100) trivial fun q o hq => ?_
    cases hq
    refine ⟨⟨1, rfl⟩, fun i hi _ _ => ?_⟩
    match i with
    | ⟨0, _⟩ => rfl
    | ⟨n + 1, _⟩ => exact absurd rfl hi
  have h5 : Reached (after (remove.take 5)).1 (after (remove.take 5)).2 := h4.go (.finish 0) trivial trivial
  have h6 : Reached (after (remove.take 6)).1 (after (remove.take 6)).2 := by
    refine h5.go (.reuse 0 (.inet 2)) (fun p => ?_) trivial
    match p with
    | 0 => exact nofun
    | n + 1 => exact nofun
  refine h6.go (.receive 1 1 (.inet 1) 5 REMOVE) ⟨rfl, fun p => ?_⟩ trivial
  match p with
  | 0 => exact nofun
  | n + 1 => exact nofun

theorem remove_sound : Sound (after remove).1 (after remove).2 := (srvcache_runs remove_reached).1

/-- The entry is not found, as it is compared with the address of the host 2: the file is removed again. -/
theorem removed_twice : Reached (after remove).1 (after remove).2 ∧ (after remove).1.Allowed (.getcache 1 200) ∧
    nonidempotent REMOVE = true ∧ valids ⟨.inet 1, 5, REMOVE⟩ (after remove).2 = [⟨5, 0, []⟩] ∧
    ∃ s', (after remove).1.step (.getcache 1 200) = .ok (s', [.began ⟨.inet 1, 5, REMOVE⟩, .looked ⟨.inet 1, 5, REMOVE⟩]) :=
  ⟨remove_reached, trivial, rfl, rfl, _, rfl⟩

end BsdKernel.Srvcache
