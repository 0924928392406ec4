import BsdKernel.Nfs.Srvcache
/-!
# The order of the duplicate request cache

`Inv`: each request that an nfsd executes or has still to note has its entry in progress, an entry that is done knows the reply that
was given, a locked entry belongs to one nfsd, and the LRU list keeps what was asked for last. `Inv.same` and `Inv.change` say what
is left to show after a step that changes no entry, or one.
-/

set_option linter.unusedSectionVars false

namespace BsdKernel.Srvcache

open BsdKernel.Lib

variable {ks : List Key}

/-! ## What was seen -/

def Happening.asked : Happening → Option Key
  | .looked k => some k
  | _ => none

/-- The requests that were looked up, the last one in front. -/
def asked (hist : List Happening) : List Key := hist.filterMap Happening.asked

def Happening.valid (k : Key) : Happening → Option Reply
  | .done k' (some r) => if k' = k then some r else none
  | _ => none

/-- The replies that executions of `k` gave. -/
def valids (k : Key) (hist : List Happening) : List Reply := hist.filterMap (Happening.valid k)

/-- What may happen. No execution begins or ends after one that gave a reply, and what is answered is this reply. -/
def Once : Happening → List Happening → Prop
  | .began k, older | .done k _, older => nonidempotent k.proc = true → valids k older = []
  | .answered k r, older => nonidempotent k.proc = true ∧ valids k older = [r]
  | _, _ => True

def Orderly : List Happening → Prop
  | [] => True
  | h :: older => Once h older ∧ Orderly older

/-! ## Processes -/

/-- The request that is executed, or whose outcome is to be noted. -/
def Pc.pending : Pc → Option (Req × Option Outcome)
  | .running q => some (q, none)
  | .update q o | .updWait q o _ => some (q, some o)
  | _ => none

/-- The entry that is locked, with the reply that is put into it. -/
def Pc.lock : Pc → Option (Req × Option Reply × Ix)
  | .replying q i => some (q, none, i)
  | .saving q _ r i => some (q, some r, i)
  | _ => none

@[simp] theorem pending_wake (i : Ix) (pc : Pc) : (Srv.wake i pc).pending = pc.pending := by
  cases pc <;> simp only [Srv.wake] <;> split <;> rfl

@[simp] theorem lock_wake (i : Ix) (pc : Pc) : (Srv.wake i pc).lock = pc.lock := by
  cases pc <;> simp only [Srv.wake] <;> split <;> rfl

/-- The replies an outcome stands for. -/
def outcomeReplies : Option Outcome → List Reply
  | some (some (_, r)) => [r]
  | _ => []

/-! ## Entries -/

/-- The request an entry is for, if it was ever used. -/
def Srv.cellKey (s : Srv) (i : Ix) : Option Key := if (s.ent i).rc_state = .unused then none else some (s.ent i).key

/-- The LRU list and the hash chains. -/
structure Table (s : Srv) (ks : List Key) : Prop where
  nodup : s.lru.Nodup
  all : ∀ i, i ∈ s.lru
  chain : ∀ i h, i ∈ s.chain h ↔ ∃ k, s.cellKey i = some k ∧ h = NFSRCHASH k.xid
  chains : ∀ h, (s.chain h).Nodup
  one : ∀ i j k, s.cellKey i = some k → s.cellKey j = some k → i = j
  known : ∀ i k, s.cellKey i = some k → k ∈ ks
  kept : ∀ k ∈ ks, Kept s.cellKey s.lru ks NFSRVCACHESIZ k

/-- What an entry knows of its request. -/
structure EntryOk (s : Srv) (hist : List Happening) (e : Nfsrvcache) : Prop where
  replied : (e.repstatus || e.repmbuf) = true → e.rc_state = .done ∧ nonidempotent e.rc_proc = true ∧
    ∃ r, s.cached e e.rc_xid = some r ∧ valids e.key hist = [r]
  failed : e.rc_state = .done → nonidempotent e.rc_proc = true → e.locked = false → (e.repstatus || e.repmbuf) = false →
    valids e.key hist = []
  kind : e.repmbuf = true → e.repstatus = false

/-- What is so of a request that is executed, or whose outcome is to be noted. -/
structure Pend (s : Srv) (hist : List Happening) (q : Req) (o : Option Outcome) : Prop where
  known : s.key q ∈ asked hist
  inprog : ∀ i, s.cellKey i = some (s.key q) → (s.ent i).rc_state = .inprog
  outcome : nonidempotent q.proc = true → valids (s.key q) hist = outcomeReplies o
  reply : ∀ st r, o = some (some (st, r)) → repliesstatus q.proc = true → r = nfs_rephead q.xid st

/-- What is so of an entry that a process has locked while it sleeps. -/
structure Holds (s : Srv) (hist : List Happening) (q : Req) (o : Option Reply) (i : Ix) : Prop where
  locked : (s.ent i).locked = true
  key : (s.ent i).key = s.key q
  done : (s.ent i).rc_state = .done
  reply : match o with
    | none => ((s.ent i).repstatus || (s.ent i).repmbuf) = true
    | some r => nonidempotent q.proc = true ∧ ((s.ent i).repstatus || (s.ent i).repmbuf) = false ∧ valids (s.key q) hist = [r]

structure Inv (s : Srv) (hist : List Happening) : Prop where
  table : Table s (asked hist)
  entry : ∀ i, EntryOk s hist (s.ent i)
  apart : ∀ i j m, (s.ent i).repmbuf = true → (s.ent j).repmbuf = true → (s.ent i).rc_un = .repmb m → (s.ent j).rc_un = .repmb m → i = j
  fresh : ∀ m, s.next ≤ m → s.replies m = none
  pend : ∀ p q o, (s.procs p).pending = some (q, o) → Pend s hist q o
  pendOne : ∀ p p' q q' o o', (s.procs p).pending = some (q, o) → (s.procs p').pending = some (q', o') → s.key q = s.key q' → p = p'
  hold : ∀ p q o i, (s.procs p).lock = some (q, o, i) → Holds s hist q o i
  holdOne : ∀ p p' q q' o o' i, (s.procs p).lock = some (q, o, i) → (s.procs p').lock = some (q', o', i) → p = p'
  seen : ∀ k, valids k hist ≠ [] → k ∈ asked hist

section Facts
variable {s s' : Srv} {hist hist' : List Happening} {i : Ix} {k : Key} {q : Req}

theorem cellKey_some : s.cellKey i = some k ↔ (s.ent i).rc_state ≠ .unused ∧ (s.ent i).key = k := by
  unfold Srv.cellKey
  split
  · rename_i h
    simp [h]
  · rename_i h
    simp [h]

theorem Holds.cellKey {o : Option Reply} (h : Holds s hist q o i) : s.cellKey i = some (s.key q) :=
  cellKey_some.2 ⟨by rw [h.done]; nofun, h.key⟩

/-! ## Searches -/

/-- The addresses of the entries that the request is compared with are where they were copied from. -/
def Srv.Intact (s : Srv) (q : Req) : Prop :=
  ∀ i, (s.ent i).rc_state ≠ .unused → (s.ent i).rc_xid = q.xid → (s.ent i).rc_proc = q.proc →
    s.dat (s.ent i).rc_nam.m_data = (s.ent i).rc_nam.m_dat

theorem eq_of_match {a b : Sockaddr} (h : nfs_netaddr_match a b = true) : a = b := by
  cases a <;> cases b <;> simp_all [nfs_netaddr_match]

theorem lookup_some (h : Table s ks) (hintact : s.Intact q) (hi : s.lookup q = some i) :
    s.cellKey i = some (s.key q) := by
  unfold Srv.lookup at hi
  have hmem := List.mem_of_find?_eq_some hi
  have htest := List.find?_some hi
  obtain ⟨k, hk, -⟩ := (h.chain _ _).1 hmem
  obtain ⟨hused, -⟩ := cellKey_some.1 hk
  simp only [Bool.and_eq_true, beq_iff_eq] at htest
  obtain ⟨⟨hxid, hproc⟩, haddr⟩ := htest
  refine cellKey_some.2 ⟨hused, ?_⟩
  unfold Nfsrvcache.key Srv.key
  rw [← hxid, ← hproc, ← hintact i hused hxid.symm hproc.symm, eq_of_match haddr]

theorem lookup_none (h : Table s ks) (hintact : s.Intact q) (hinet : ∃ a, s.dat q.nam = .inet a)
    (hi : s.lookup q = none) (i : Ix) : s.cellKey i ≠ some (s.key q) := by
  intro hk
  obtain ⟨hused, hkey⟩ := cellKey_some.1 hk
  obtain ⟨haddr, hxid, hproc⟩ := Key.mk.inj hkey
  obtain ⟨a, ha⟩ := hinet
  have hmem : i ∈ s.chain (NFSRCHASH q.xid) := (h.chain _ _).2 ⟨_, hk, rfl⟩
  have hno := List.find?_eq_none.1 hi i hmem
  rw [hxid, hproc, hintact i hused hxid hproc, haddr, ha] at hno
  simp [nfs_netaddr_match] at hno

/-! ## Searches and the order of use -/

theorem Table.ask (h : Table s ks) (hi : s.cellKey i = some k) (hcell : s'.cellKey = s.cellKey)
    (hlru : s'.lru = s.lru) (hchain : s'.chain = s.chain) : Table s' (k :: ks) := by
  refine ⟨hlru ▸ h.nodup, hlru ▸ h.all, fun j g => ?_, hchain ▸ h.chains, hcell ▸ h.one, fun j k' hj => ?_, fun k' hk' => ?_⟩
  · rw [hchain, hcell]
    exact h.chain j g
  · rw [hcell] at hj
    exact List.mem_cons_of_mem _ (h.known j k' hj)
  · rw [hcell, hlru]
    have hmem : k' ∈ ks := (List.mem_cons.1 hk').elim (fun he => he ▸ h.known i k hi) id
    exact (h.kept k' hmem).ask k

theorem Table.hit (h : Table s ks) (hi : s.cellKey i = some k) (hcell : s'.cellKey = s.cellKey)
    (hlru : s'.lru = touch i s.lru) (hchain : s'.chain = s.chain) : Table s' (k :: ks) := by
  refine ⟨hlru ▸ nodup_touch h.nodup, fun j => ?_, fun j g => ?_, hchain ▸ h.chains, hcell ▸ h.one, fun j k' hj => ?_, fun k' hk' => ?_⟩
  · rw [hlru]
    exact (mem_touch (h.all i)).2 (h.all j)
  · rw [hchain, hcell]
    exact h.chain j g
  · rw [hcell] at hj
    exact List.mem_cons_of_mem _ (h.known j k' hj)
  · rw [hcell, hlru]
    have hmem : k' ∈ ks := (List.mem_cons.1 hk').elim (fun he => he ▸ h.known i k hi) id
    exact (h.kept k' hmem).hit hmem hi

theorem Table.length (h : Table s ks) : s.lru.length = NFSRVCACHESIZ := by
  have hperm : s.lru.Perm (List.finRange NFSRVCACHESIZ) :=
    (List.perm_ext_iff_of_nodup h.nodup (List.nodup_finRange _)).2 fun j => ⟨fun _ => List.mem_finRange j, fun _ => h.all j⟩
  rw [hperm.length_eq, List.length_finRange]

theorem rehash_self (h : Fin NFSRCHSZ) : (s.rehash i h).chain h = i :: (s.chain h).erase i := by simp [Srv.rehash]

theorem rehash_other {g h : Fin NFSRCHSZ} (hg : g ≠ h) : (s.rehash i h).chain g = (s.chain g).erase i := by
  simp [Srv.rehash, Function.update_of_ne hg]

/-- A request that gets the last entry. -/
theorem Table.miss (h : Table s ks) (hlast : s.lru.getLast? = some i) (hk : k ∉ ks)
    (hcell : s'.cellKey = Function.update s.cellKey i (some k)) (hlru : s'.lru = touch i s.lru)
    (hchain : s'.chain = (s.rehash i (NFSRCHASH k.xid)).chain) : Table s' (k :: ks) := by
  have hnone : ∀ j, s.cellKey j ≠ some k := fun j hj => hk (h.known j k hj)
  have hother : ∀ j k', j ≠ i → s'.cellKey j = some k' → s.cellKey j = some k' := by
    intro j k' hj hc
    rwa [hcell, Function.update_of_ne hj] at hc
  have hself : s'.cellKey i = some k := by rw [hcell, Function.update_self]
  refine ⟨hlru ▸ nodup_touch h.nodup, fun j => ?_, fun j g => ?_, fun g => ?_, fun j j' k' hj hj' => ?_, fun j k' hj => ?_, fun k' hk' => ?_⟩
  · rw [hlru]
    exact (mem_touch (h.all i)).2 (h.all j)
  · rw [hchain]
    by_cases hj : j = i
    · subst hj
      simp only [hself, Option.some.injEq, exists_eq_left']
      by_cases hg : g = NFSRCHASH k.xid
      · subst hg
        simp [rehash_self]
      · rw [rehash_other hg]
        exact iff_of_false (h.chains g).not_mem_erase hg
    · have hin : j ∈ (s.chain g).erase i ↔ ∃ k', s'.cellKey j = some k' ∧ g = NFSRCHASH k'.xid := by
        rw [List.mem_erase_of_ne hj, h.chain j g, hcell, Function.update_of_ne hj]
      by_cases hg : g = NFSRCHASH k.xid
      · subst hg
        rw [rehash_self, List.mem_cons, or_iff_right hj]
        exact hin
      · rw [rehash_other hg]
        exact hin
  · rw [hchain]
    by_cases hg : g = NFSRCHASH k.xid
    · subst hg
      rw [rehash_self]
      exact List.nodup_cons.2 ⟨(h.chains _).not_mem_erase, (h.chains _).erase i⟩
    · rw [rehash_other hg]
      exact (h.chains g).erase i
  · by_cases hji : j = i
    · by_cases hji' : j' = i
      · rw [hji, hji']
      · rw [hji, hself] at hj
        obtain rfl := Option.some.inj hj
        exact absurd (hother j' _ hji' hj') (hnone j')
    · by_cases hji' : j' = i
      · rw [hji', hself] at hj'
        obtain rfl := Option.some.inj hj'
        exact absurd (hother j _ hji hj) (hnone j)
      · exact h.one j j' k' (hother j k' hji hj) (hother j' k' hji' hj')
  · by_cases hji : j = i
    · rw [hji, hself] at hj
      exact Option.some.inj hj ▸ List.mem_cons_self
    · exact List.mem_cons_of_mem _ (h.known j k' (hother j k' hji hj))
  · rw [hcell, hlru]
    rcases List.mem_cons.1 hk' with rfl | hmem
    · exact .front (Function.update_self ..)
    · exact (h.kept k' hmem).miss hmem h.nodup h.length hlast (fun b c k'' => h.one b c k'') hnone

/-! ## Steps that change no entry -/

/-- Only `RC_WANTED` and the time differ. -/
def SameEnt (e e' : Nfsrvcache) : Prop := ∃ w t, e' = { e with wanted := w, rc_timestamp := t }

theorem SameEnt.refl (e : Nfsrvcache) : SameEnt e e := ⟨_, _, rfl⟩

theorem cached_congr {e : Nfsrvcache} {xid : UInt32} (h : e.repstatus = false → ∀ m, e.rc_un = .repmb m → s'.replies m = s.replies m) :
    s'.cached e xid = s.cached e xid := by
  unfold Srv.cached
  cases hst : e.repstatus with
  | true => cases e.rc_un <;> rfl
  | false =>
    cases hun : e.rc_un with
    | repstat st => rfl
    | repmb m => exact h hst m hun

theorem cellKey_same (hents : ∀ i, SameEnt (s.ent i) (s'.ent i)) : s'.cellKey = s.cellKey := by
  funext i
  obtain ⟨w, t, he⟩ := hents i
  simp only [Srv.cellKey, he, Nfsrvcache.key]

theorem Table.congr (h : Table s ks) (hcell : s'.cellKey = s.cellKey) (hlru : s'.lru = s.lru)
    (hchain : s'.chain = s.chain) : Table s' ks := by
  refine ⟨hlru ▸ h.nodup, hlru ▸ h.all, fun i g => ?_, hchain ▸ h.chains, hcell ▸ h.one, hcell ▸ h.known, ?_⟩
  · rw [hchain, hcell]
    exact h.chain i g
  · rw [hcell, hlru]
    exact h.kept

/-- A step that changes no entry; a process may have nothing left to do. -/
theorem Inv.same (h : Inv s hist) (htable : Table s' (asked hist')) (hents : ∀ i, SameEnt (s.ent i) (s'.ent i))
    (hvalids : ∀ k, valids k hist' = valids k hist) (hasked : ∀ k ∈ asked hist, k ∈ asked hist')
    (hpend : ∀ p, (s'.procs p).pending = (s.procs p).pending ∨ (s'.procs p).pending = none)
    (hlock : ∀ p, (s'.procs p).lock = (s.procs p).lock)
    (hkeys : ∀ p q, (∃ o, (s.procs p).pending = some (q, o)) ∨ (∃ o i, (s.procs p).lock = some (q, o, i)) → s'.key q = s.key q)
    (hreplies : s'.replies = s.replies) (hnext : s'.next = s.next) : Inv s' hist' := by
  have hcell := cellKey_same hents
  have hcached : ∀ e xid, s'.cached e xid = s.cached e xid := fun e xid => cached_congr fun _ m _ => by rw [hreplies]
  have hold : ∀ {p q o}, (s'.procs p).pending = some (q, o) → (s.procs p).pending = some (q, o) := by
    intro p q o hp
    rcases hpend p with heq | hnone
    · rw [← heq, hp]
    · rw [hnone] at hp
      cases hp
  refine ⟨htable, fun i => ?_, fun i j m hi hj hm hm' => ?_, fun m hm => ?_, fun p q o hp => ?_, fun p p' q q' o o' hp hp' hk => ?_,
    fun p q o i hp => ?_, fun p p' q q' o o' i hp hp' => ?_, fun k hk => ?_⟩
  · obtain ⟨w, t, he⟩ := hents i
    have hok := h.entry i
    rw [he]
    refine ⟨fun hf => ?_, fun hd hn hl hf => ?_, hok.kind⟩
    · obtain ⟨hd, hn, r, hr, hv⟩ := hok.replied hf
      refine ⟨hd, hn, r, ?_, by rw [hvalids]; exact hv⟩
      rw [hcached]
      exact hr
    · rw [hvalids]
      exact hok.failed hd hn hl hf
  · obtain ⟨w, t, he⟩ := hents i
    obtain ⟨w', t', he'⟩ := hents j
    rw [he] at hi hm
    rw [he'] at hj hm'
    exact h.apart i j m hi hj hm hm'
  · rw [hreplies]
    exact h.fresh m (hnext ▸ hm)
  · have hp' := hold hp
    have hok := h.pend p q o hp'
    have hkey := hkeys p q (.inl ⟨o, hp'⟩)
    refine ⟨hkey ▸ hasked _ hok.known, fun i hi => ?_, fun hn => ?_, hok.reply⟩
    · obtain ⟨w, t, he⟩ := hents i
      rw [he]
      exact hok.inprog i (by rw [← hcell, hi, hkey])
    · rw [hkey, hvalids]
      exact hok.outcome hn
  · have hq := hold hp
    have hq' := hold hp'
    rw [hkeys p q (.inl ⟨o, hq⟩), hkeys p' q' (.inl ⟨o', hq'⟩)] at hk
    exact h.pendOne p p' q q' o o' hq hq' hk
  · rw [hlock] at hp
    have hok := h.hold p q o i hp
    have hkey := hkeys p q (.inr ⟨o, i, hp⟩)
    obtain ⟨w, t, he⟩ := hents i
    refine ⟨by rw [he]; exact hok.locked, by rw [he, hkey]; exact hok.key, by rw [he]; exact hok.done, ?_⟩
    rw [he, hkey, hvalids]
    exact hok.reply
  · rw [hlock] at hp hp'
    exact h.holdOne p p' q q' o o' i hp hp'
  · rw [hvalids] at hk
    exact hasked k (h.seen k hk)

/-! ## Steps that change one entry -/

/-- A step of the process `p` that changes the entry `i`. -/
theorem Inv.change (h : Inv s hist) {p : Nat} {e' : Nfsrvcache} (htable : Table s' (asked hist')) (hent : s'.ent = Function.update s.ent i e')
    (hvalids : ∀ k, valids k hist' = valids k hist) (hasked : ∀ k ∈ asked hist, k ∈ asked hist') (hdat : s'.dat = s.dat)
    (hothers : ∀ p', p' ≠ p → (s'.procs p').pending = (s.procs p').pending ∧ (s'.procs p').lock = (s.procs p').lock)
    (hfree : ∀ p' q o, p' ≠ p → (s.procs p').lock ≠ some (q, o, i))
    (hstate : e'.rc_state = .inprog ∨ ∀ p' q o, p' ≠ p → (s.procs p').pending = some (q, o) → e'.key ≠ s.key q)
    (hentry : EntryOk s' hist' e')
    (hpend : ∀ q o, (s'.procs p).pending = some (q, o) → Pend s' hist' q o ∧
      ∀ p' q' o', p' ≠ p → (s.procs p').pending = some (q', o') → s.key q' ≠ s.key q)
    (hlock : ∀ q o j, (s'.procs p).lock = some (q, o, j) → j = i ∧ Holds s' hist' q o i)
    (hreplies : ∀ j m, j ≠ i → (s.ent j).repmbuf = true → (s.ent j).rc_un = .repmb m → s'.replies m = s.replies m)
    (hapart : ∀ j m, j ≠ i → e'.repmbuf = true → e'.rc_un = .repmb m → (s.ent j).repmbuf = true → (s.ent j).rc_un ≠ .repmb m)
    (hfresh : ∀ m, s'.next ≤ m → s'.replies m = none) : Inv s' hist' := by
  have hkeyq : ∀ q, s'.key q = s.key q := fun q => by rw [Srv.key, Srv.key, hdat]
  have hself : s'.ent i = e' := by rw [hent, Function.update_self]
  have hne : ∀ j, j ≠ i → s'.ent j = s.ent j := fun j hj => by rw [hent, Function.update_of_ne hj]
  have hcell : ∀ j, j ≠ i → s'.cellKey j = s.cellKey j := fun j hj => by simp only [Srv.cellKey, hne j hj]
  refine ⟨htable, fun j => ?_, fun j k m hj hk hm hm' => ?_, hfresh, fun p' q o hp' => ?_, fun p1 p2 q1 q2 o1 o2 hp1 hp2 hk => ?_,
    fun p' q o j hp' => ?_, fun p1 p2 q1 q2 o1 o2 j hp1 hp2 => ?_, fun k hk => ?_⟩
  · by_cases hj : j = i
    · rw [hj, hself]
      exact hentry
    · rw [hne j hj]
      have hok := h.entry j
      refine ⟨fun hf => ?_, fun hd hn hl hf => ?_, hok.kind⟩
      · obtain ⟨hd, hn, r, hr, hv⟩ := hok.replied hf
        refine ⟨hd, hn, r, ?_, by rw [hvalids]; exact hv⟩
        rw [cached_congr fun hst m hm => hreplies j m hj (by simpa [hst] using hf) hm]
        exact hr
      · rw [hvalids]
        exact hok.failed hd hn hl hf
  · by_cases hji : j = i
    · by_cases hki : k = i
      · rw [hji, hki]
      · rw [hji, hself] at hj hm
        rw [hne k hki] at hk hm'
        exact absurd hm' (hapart k m hki hj hm hk)
    · rw [hne j hji] at hj hm
      by_cases hki : k = i
      · rw [hki, hself] at hk hm'
        exact absurd hm (hapart j m hji hk hm' hj)
      · rw [hne k hki] at hk hm'
        exact h.apart j k m hj hk hm hm'
  · by_cases hpp : p' = p
    · rw [hpp] at hp'
      exact (hpend q o hp').1
    · rw [(hothers p' hpp).1] at hp'
      have hok := h.pend p' q o hp'
      refine ⟨(hkeyq q).symm ▸ hasked _ hok.known, fun j hj => ?_, fun hn => ?_, hok.reply⟩
      · by_cases hji : j = i
        · rw [hji] at hj ⊢
          rw [hself]
          rcases hstate with hs | hs
          · exact hs
          · have hkey := (cellKey_some.1 hj).2
            rw [hself, hkeyq] at hkey
            exact absurd hkey (hs p' q o hpp hp')
        · rw [hne j hji]
          exact hok.inprog j (by rw [← hcell j hji, hj, hkeyq])
      · rw [hkeyq, hvalids]
        exact hok.outcome hn
  · rw [hkeyq, hkeyq] at hk
    by_cases h1 : p1 = p
    · by_cases h2 : p2 = p
      · rw [h1, h2]
      · rw [h1] at hp1
        rw [(hothers p2 h2).1] at hp2
        exact absurd hk.symm ((hpend q1 o1 hp1).2 p2 q2 o2 h2 hp2)
    · rw [(hothers p1 h1).1] at hp1
      by_cases h2 : p2 = p
      · rw [h2] at hp2
        exact absurd hk ((hpend q2 o2 hp2).2 p1 q1 o1 h1 hp1)
      · rw [(hothers p2 h2).1] at hp2
        exact h.pendOne p1 p2 q1 q2 o1 o2 hp1 hp2 hk
  · by_cases hpp : p' = p
    · rw [hpp] at hp'
      obtain ⟨rfl, hholds⟩ := hlock q o j hp'
      exact hholds
    · rw [(hothers p' hpp).2] at hp'
      have hji : j ≠ i := by
        rintro rfl
        exact hfree p' q o hpp hp'
      have hok := h.hold p' q o j hp'
      refine ⟨by rw [hne j hji]; exact hok.locked, by rw [hne j hji, hkeyq]; exact hok.key, by rw [hne j hji]; exact hok.done, ?_⟩
      rw [hne j hji, hkeyq, hvalids]
      exact hok.reply
  · by_cases h1 : p1 = p
    · by_cases h2 : p2 = p
      · rw [h1, h2]
      · rw [h1] at hp1
        rw [(hothers p2 h2).2] at hp2
        obtain ⟨rfl, -⟩ := hlock q1 o1 j hp1
        exact absurd hp2 (hfree p2 q2 o2 h2)
    · rw [(hothers p1 h1).2] at hp1
      by_cases h2 : p2 = p
      · rw [h2] at hp2
        obtain ⟨rfl, -⟩ := hlock q2 o2 j hp2
        exact absurd hp1 (hfree p1 q1 o1 h1)
      · rw [(hothers p2 h2).2] at hp2
        exact h.holdOne p1 p2 q1 q2 o1 o2 j hp1 hp2
  · rw [hvalids] at hk
    exact hasked k (h.seen k hk)

end Facts

end BsdKernel.Srvcache
