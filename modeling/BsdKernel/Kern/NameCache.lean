import BsdKernel.Lib.Trace
import Mathlib.Data.List.Nodup
import Mathlib.Data.List.Perm.Basic
import Mathlib.Logic.Function.Basic
import Mathlib.Tactic
/-!
# The name cache

`cache_lookup`, `cache_enter`, `cache_purge` and `cache_purgevfs` of `kern/vfs_cache.c`.
An entry is on the LRU list always and on a hash chain while it is in use; it is valid
while the two vnodes it names have the `v_id` they had when it was made. `cache_purge`
gives a vnode a new id and leaves the entries where they are; when the ids wrap around
it empties the chains, but the other vnodes keep the ids they have.

`cache_runs`: every answer of the cache is what the latest `cache_enter` of the name
stored, in every state of a run, exactly if no `cache_purge` gives a vnode an id under
which an entry of it is on a chain.
-/

namespace BsdKernel.NameCache

open BsdKernel.Lib

set_option linter.unusedSectionVars false

/-! ## The cache -/

def NCHNAMLEN : Nat := 31
def MAKEENTRY : BitVec 32 := 0x04000
def ISWHITEOUT : BitVec 32 := 0x20000

/-- `cn_nameiop` -/
inductive Nameiop where
  | LOOKUP | CREATE | DELETE | RENAME
  deriving DecidableEq, Repr

/-- `struct componentname` -/
structure Componentname where
  nameiop : Nameiop
  flags : BitVec 32
  name : List UInt8
  deriving DecidableEq, Repr

/-- `cn_hash`, as `lookup` computes it. -/
def cnHash (name : List UInt8) : BitVec 32 := name.foldl (fun h c => h + BitVec.ofNat 32 c.toNat) 0

/-- `struct namecache`; `lePrev` says whether `nc_hash.le_prev` is not 0. -/
structure Namecache (V : Type) where
  lePrev : Bool
  dvp : V
  dvpid : BitVec 32
  vp : Option V
  vpid : BitVec 32
  name : List UInt8

/-- The vnodes, as far as the cache reads them, and the cache. The entries that have been
allocated are those below `numcache`. -/
structure Cache (V M : Type) where
  vId : V → BitVec 32
  vMount : V → M
  nextvnodeid : BitVec 32
  doingcache : Bool
  desiredvnodes : Int
  numcache : Nat
  ncp : Nat → Namecache V
  nclruhead : List Nat
  nchash : BitVec 32
  nchashtbl : Nat → List Nat

variable {V M : Type} [DecidableEq V] [DecidableEq M]

/-- `NCHHASH`, by the id and the name. -/
def NCHHASH (nchash id : BitVec 32) (name : List UInt8) : Nat := ((id + cnHash name) &&& nchash).toNat

/-- One of the vnodes went stale. -/
def stale (vId : V → BitVec 32) (e : Namecache V) : Bool :=
  e.dvpid != vId e.dvp || e.vp.any fun vp => e.vpid != vId vp

namespace Cache

variable (s : Cache V M)

/-- `LIST_REMOVE`, and `le_prev` set to 0. -/
def unhash (p : Nat) : Cache V M :=
  { s with
    nchashtbl := fun i => (s.nchashtbl i).erase p
    ncp := Function.update s.ncp p { s.ncp p with lePrev := false } }

/-- `PURGE` -/
def PURGE (p : Nat) : Cache V M :=
  { s.unhash p with nclruhead := p :: s.nclruhead.erase p }

/-- `TOUCH` -/
def TOUCH (p : Nat) : Cache V M :=
  if s.nclruhead.getLast? = some p then s else { s with nclruhead := s.nclruhead.erase p ++ [p] }

end Cache

/-- The loop of `cache_lookup` over the rest of a chain. -/
def search (dvp : V) (name : List UInt8) : List Nat → Cache V M → Cache V M × Option Nat
  | [], s => (s, none)
  | p :: l, s =>
    if stale s.vId (s.ncp p) then search dvp name l (s.PURGE p)
    else if (s.ncp p).dvp = dvp ∧ (s.ncp p).name = name then (s, some p)
    else search dvp name l s

/-- What `cache_lookup` returns: 0, or -1 with `*vpp`, or `ENOENT`. -/
inductive Status (V : Type) where
  | zero
  | found (vp : V)
  | ENOENT
  deriving DecidableEq, Repr

/-- `cache_lookup`, with `cn_flags` as it leaves them. -/
def cacheLookup (s : Cache V M) (dvp : V) (cnp : Componentname) : Cache V M × Status V × BitVec 32 :=
  if !s.doingcache then (s, .zero, cnp.flags &&& ~~~MAKEENTRY)
  else if cnp.name.length > NCHNAMLEN then (s, .zero, cnp.flags &&& ~~~MAKEENTRY)
  else
    match search dvp cnp.name (s.nchashtbl (NCHHASH s.nchash (s.vId dvp) cnp.name)) s with
    | (s, none) => (s, .zero, cnp.flags)
    | (s, some p) =>
      if cnp.flags &&& MAKEENTRY = 0 then (s.PURGE p, .zero, cnp.flags)
      else
        match (s.ncp p).vp with
        | some vp => (s.TOUCH p, .found vp, cnp.flags)
        | none =>
          if cnp.nameiop = .CREATE then (s.PURGE p, .zero, cnp.flags)
          else (s.TOUCH p, .ENOENT, cnp.flags ||| (s.ncp p).vpid)

/-- The entry that `cache_enter` fills: a new one, or the one at the front of the LRU list. -/
def newEntry (s : Cache V M) : Option (Cache V M × Nat) :=
  if s.numcache < s.desiredvnodes ∧ (s.nclruhead.head?.all fun p => (s.ncp p).lePrev) then
    some ({ s with
      numcache := s.numcache + 1
      ncp := Function.update s.ncp s.numcache { s.ncp s.numcache with lePrev := false } }, s.numcache)
  else
    match s.nclruhead with
    | p :: l =>
      let s := { s with nclruhead := l }
      some (if (s.ncp p).lePrev then s.unhash p else s, p)
    | [] => none

/-- `cache_enter` -/
def cacheEnter (s : Cache V M) (dvp : V) (vp : Option V) (cnp : Componentname) : Cache V M :=
  if !s.doingcache then s
  else
    match newEntry s with
    | none => s
    | some (s, p) =>
      let vpid := match vp with
        | some vp => s.vId vp
        | none => cnp.flags &&& ISWHITEOUT
      let i := NCHHASH s.nchash (s.vId dvp) cnp.name
      { s with
        ncp := Function.update s.ncp p ⟨true, dvp, s.vId dvp, vp, vpid, cnp.name⟩
        nclruhead := s.nclruhead ++ [p]
        nchashtbl := Function.update s.nchashtbl i (p :: s.nchashtbl i) }

/-- The chains from the last to the first, each from its head on, without the entries to `drop`. -/
def sweep (s : Cache V M) (drop : Namecache V → Bool) : Cache V M :=
  (List.range (s.nchash.toNat + 1)).reverse.foldl (fun s i =>
    (s.nchashtbl i).foldl (fun s p => if drop (s.ncp p) then s.PURGE p else s) s) s

/-- `cache_purge` -/
def cachePurge (s : Cache V M) (vp : V) : Cache V M :=
  let s := { s with nextvnodeid := s.nextvnodeid + 1, vId := Function.update s.vId vp (s.nextvnodeid + 1) }
  if s.nextvnodeid ≠ 0 then s
  else
    let s := sweep s fun _ => true
    { s with nextvnodeid := s.nextvnodeid + 1, vId := Function.update s.vId vp (s.nextvnodeid + 1) }

/-- `cache_purgevfs` -/
def cachePurgevfs (s : Cache V M) (mp : M) : Cache V M :=
  sweep s fun e => stale s.vId e || decide (s.vMount e.dvp = mp)

/-! ## Runs -/

/-- A call, or a new limit (`KERN_MAXVNODES`). -/
inductive Op (V M : Type) where
  | lookup (dvp : V) (cnp : Componentname)
  | enter (dvp : V) (vp : Option V) (cnp : Componentname)
  | purge (vp : V)
  | purgevfs (mp : M)
  | limit (desiredvnodes : Int)

/-- A call that was made, and the cache after it. -/
structure Event (V M : Type) where
  op : Op V M
  after : Cache V M

/-- The cache, the names that a `cache_lookup` has asked for and that may be entered, and what has
happened so far, the latest first. -/
structure World (V M : Type) where
  cache : Cache V M
  asked : List (V × List UInt8)
  log : List (Event V M)

def World.next (w : World V M) (op : Op V M) (s : Cache V M) (asked : List (V × List UInt8)) : World V M :=
  ⟨s, asked, ⟨op, s⟩ :: w.log⟩

@[simp] theorem World.next_cache (w : World V M) (op : Op V M) (s : Cache V M) (asked : List (V × List UInt8)) :
    (w.next op s asked).cache = s := rfl

def step (w : World V M) : Op V M → World V M
  | .lookup dvp cnp =>
    let r := cacheLookup w.cache dvp cnp
    w.next (.lookup dvp cnp) r.1
      (if r.2.1 = .zero ∧ r.2.2 &&& MAKEENTRY ≠ 0 then (dvp, cnp.name) :: w.asked else w.asked)
  | .enter dvp vp cnp =>
    w.next (.enter dvp vp cnp) (cacheEnter w.cache dvp vp cnp) (w.asked.filter (· ≠ (dvp, cnp.name)))
  | .purge vp => w.next (.purge vp) (cachePurge w.cache vp) w.asked
  | .purgevfs mp => w.next (.purgevfs mp) (cachePurgevfs w.cache mp) w.asked
  | .limit n => w.next (.limit n) { w.cache with desiredvnodes := n } w.asked

/-- A name is entered only after a `cache_lookup` of it returned 0 with `MAKEENTRY` set. -/
def Proper (w : World V M) : Op V M → Prop
  | .enter dvp _ cnp => (dvp, cnp.name) ∈ w.asked
  | _ => True

instance Proper.decidable (w : World V M) : ∀ op, Decidable (Proper w op)
  | .enter dvp _ cnp => inferInstanceAs (Decidable ((dvp, cnp.name) ∈ w.asked))
  | .lookup _ _ | .purge _ | .purgevfs _ | .limit _ => inferInstanceAs (Decidable True)

/-- After `nchinit`, with whatever ids. -/
structure Boot (w : World V M) : Prop where
  lru : w.cache.nclruhead = []
  chains : ∀ i, w.cache.nchashtbl i = []
  none : w.cache.numcache = 0
  asked : w.asked = []
  log : w.log = []

/-! ## What is to be shown -/

/-- The entry is in use and neither of its vnodes went stale. -/
def Valid (s : Cache V M) (p : Nat) : Prop :=
  p < s.numcache ∧ (s.ncp p).lePrev = true ∧ stale s.vId (s.ncp p) = false

/-- A valid entry has the name. -/
def Held (s : Cache V M) (dvp : V) (name : List UInt8) (vp : Option V) : Prop :=
  ∃ p, Valid s p ∧ (s.ncp p).dvp = dvp ∧ (s.ncp p).name = name ∧ (s.ncp p).vp = vp

/-- The call enters the name again, or invalidates it. -/
def Ends (vMount : V → M) (dvp : V) (name : List UInt8) (vp : Option V) : Op V M → Prop
  | .enter dvp' _ cnp => dvp' = dvp ∧ cnp.name = name
  | .purge v => v = dvp ∨ some v = vp
  | .purgevfs mp => mp = vMount dvp
  | _ => False

/-- The latest `cache_enter` of the name stored `vp`, or for a negative entry the flag `whiteout`; since then
nothing has invalidated it and it has not been dropped. -/
def Latest (vMount : V → M) (log : List (Event V M)) (dvp : V) (name : List UInt8) (vp : Option V)
    (whiteout : BitVec 32) : Prop :=
  ∃ since cnp s before, log = since ++ ⟨.enter dvp vp cnp, s⟩ :: before ∧ cnp.name = name ∧
    (vp = none → cnp.flags &&& ISWHITEOUT = whiteout) ∧ Held s dvp name vp ∧
    ∀ e ∈ since, ¬Ends vMount dvp name vp e.op ∧ Held e.after dvp name vp

/-- The cache is sound and well formed. -/
structure Good (w : World V M) : Prop where
  found : ∀ dvp cnp vp, (cacheLookup w.cache dvp cnp).2.1 = .found vp →
    ∃ f, Latest w.cache.vMount w.log dvp cnp.name (some vp) f
  enoent : ∀ dvp cnp, (cacheLookup w.cache dvp cnp).2.1 = .ENOENT →
    ∃ f, Latest w.cache.vMount w.log dvp cnp.name none f ∧ (cacheLookup w.cache dvp cnp).2.2 = cnp.flags ||| f
  unique : ∀ p q, Valid w.cache p → Valid w.cache q → (w.cache.ncp p).dvp = (w.cache.ncp q).dvp →
    (w.cache.ncp p).name = (w.cache.ncp q).name → p = q
  lru : w.cache.nclruhead.Perm (List.range w.cache.numcache)
  chains : ∀ i, (w.cache.nchashtbl i).Nodup
  hashed : ∀ p, (∃ i, p ∈ w.cache.nchashtbl i) ↔ p < w.cache.numcache ∧ (w.cache.ncp p).lePrev = true
  count : ∀ op, ((step w op).cache.numcache : Int) ≤ max w.cache.desiredvnodes w.cache.numcache

/-- `cache_purge` does not give the vnode an id under which an entry of it is on a chain. -/
def Fresh (w : World V M) : Op V M → Prop
  | .purge v => w.cache.nextvnodeid + 1 = 0 ∨ ∀ p < w.cache.numcache, (w.cache.ncp p).lePrev = true →
      (w.cache.ncp p).dvp = v ∨ (w.cache.ncp p).vp = some v →
        stale (Function.update w.cache.vId v (w.cache.nextvnodeid + 1)) (w.cache.ncp p) = true
  | _ => True

instance Fresh.decidable (w : World V M) : ∀ op, Decidable (Fresh w op)
  | .purge v => inferInstanceAs (Decidable (w.cache.nextvnodeid + 1 = 0 ∨ ∀ p < w.cache.numcache,
      (w.cache.ncp p).lePrev = true → (w.cache.ncp p).dvp = v ∨ (w.cache.ncp p).vp = some v →
        stale (Function.update w.cache.vId v (w.cache.nextvnodeid + 1)) (w.cache.ncp p) = true))
  | .lookup _ _ | .enter _ _ _ | .purgevfs _ | .limit _ => inferInstanceAs (Decidable True)

/-! ## The lists -/

/-- The LRU list has every entry once, and the chains have the entries in use, each where its id and name
put it. -/
structure Shape (s : Cache V M) : Prop where
  lru : s.nclruhead.Perm (List.range s.numcache)
  nodup : ∀ i, (s.nchashtbl i).Nodup
  chain : ∀ i p, p ∈ s.nchashtbl i ↔
    p < s.numcache ∧ (s.ncp p).lePrev = true ∧ i = NCHHASH s.nchash (s.ncp p).dvpid (s.ncp p).name

/-- Only the lists have changed, and nothing new is in use. -/
structure Keeps (s s' : Cache V M) : Prop where
  shape : Shape s'
  vId : s'.vId = s.vId
  vMount : s'.vMount = s.vMount
  numcache : s'.numcache = s.numcache
  doingcache : s'.doingcache = s.doingcache
  nchash : s'.nchash = s.nchash
  ncp : ∀ p, (s'.ncp p).lePrev = true → s'.ncp p = s.ncp p

variable {p : Nat} {s' s : Cache V M} {op : Op V M}

section Lists
variable {s s' s'' : Cache V M}

theorem Keeps.refl (h : Shape s) : Keeps s s := ⟨h, rfl, rfl, rfl, rfl, rfl, fun _ _ => rfl⟩

theorem Keeps.trans (h : Keeps s s') (h' : Keeps s' s'') : Keeps s s'' where
  shape := h'.shape
  vId := h'.vId.trans h.vId
  vMount := h'.vMount.trans h.vMount
  numcache := h'.numcache.trans h.numcache
  doingcache := h'.doingcache.trans h.doingcache
  nchash := h'.nchash.trans h.nchash
  ncp := fun p hp => by
    have heq := h'.ncp p hp
    rw [heq] at hp ⊢
    exact h.ncp p hp

theorem Keeps.valid (h : Keeps s s') (hp : Valid s' p) : Valid s p ∧ s'.ncp p = s.ncp p := by
  obtain ⟨hlt, hprev, hst⟩ := hp
  have heq := h.ncp p hprev
  rw [heq] at hprev hst
  rw [h.numcache] at hlt
  rw [h.vId] at hst
  exact ⟨⟨hlt, hprev, hst⟩, heq⟩

theorem Shape.mem_lru (h : Shape s) : p ∈ s.nclruhead ↔ p < s.numcache := by
  rw [h.lru.mem_iff, List.mem_range]

theorem Shape.mem_of_valid (h : Shape s) (hp : Valid s p) :
    p ∈ s.nchashtbl (NCHHASH s.nchash (s.vId (s.ncp p).dvp) (s.ncp p).name) := by
  obtain ⟨hlt, hprev, hst⟩ := hp
  have hid : (s.ncp p).dvpid = s.vId (s.ncp p).dvp := by
    unfold stale at hst
    rw [Bool.or_eq_false_iff] at hst
    simpa using hst.1
  rw [h.chain, hid]
  exact ⟨hlt, hprev, rfl⟩

theorem unhash_ncp_self (p : Nat) : ((s.unhash p).ncp p).lePrev = false := by simp [Cache.unhash]

theorem unhash_ncp_ne {q : Nat} (h : q ≠ p) : (s.unhash p).ncp q = s.ncp q := by simp [Cache.unhash, h]

theorem Shape.unhash_chain (h : Shape s) (p i q : Nat) : q ∈ (s.unhash p).nchashtbl i ↔
    q < s.numcache ∧ ((s.unhash p).ncp q).lePrev = true ∧
      i = NCHHASH s.nchash ((s.unhash p).ncp q).dvpid ((s.unhash p).ncp q).name := by
  show q ∈ (s.nchashtbl i).erase p ↔ _
  rw [(h.nodup i).mem_erase_iff, h.chain]
  by_cases hq : q = p
  · subst hq
    simp [unhash_ncp_self]
  · simp [hq, unhash_ncp_ne hq]

theorem Shape.PURGE (h : Shape s) (hp : p < s.numcache) : Keeps s (s.PURGE p) where
  shape := by
    refine ⟨?_, fun i => (h.nodup i).erase p, h.unhash_chain p⟩
    exact (List.perm_cons_erase (h.mem_lru.2 hp)).symm.trans h.lru
  vId := rfl
  vMount := rfl
  numcache := rfl
  doingcache := rfl
  nchash := rfl
  ncp := fun q hq => by
    have hne : q ≠ p := by
      rintro rfl
      exact Bool.false_ne_true ((unhash_ncp_self (s := s) q).symm.trans hq)
    exact unhash_ncp_ne hne

theorem Shape.TOUCH (h : Shape s) (hp : p < s.numcache) : Keeps s (s.TOUCH p) ∧ (s.TOUCH p).ncp = s.ncp := by
  unfold Cache.TOUCH
  split
  · exact ⟨Keeps.refl h, rfl⟩
  · refine ⟨⟨⟨?_, h.nodup, h.chain⟩, rfl, rfl, rfl, rfl, rfl, fun _ _ => rfl⟩, rfl⟩
    have hcons := List.perm_cons_erase (h.mem_lru.2 hp)
    exact (List.perm_append_singleton _ _).trans (hcons.symm.trans h.lru)

end Lists

/-! ## `cache_lookup` -/

section Lookup
variable {s : Cache V M}

/-- The loop finds the entry with the name, unless no valid one on the chain has it. -/
theorem search_spec (dvp : V) (name : List UInt8) {l : List Nat} (h : Shape s)
    (hl : ∀ p ∈ l, p < s.numcache ∧ (s.ncp p).lePrev = true) (hn : l.Nodup) :
    Keeps s (search dvp name l s).1 ∧
      (∀ p, (search dvp name l s).2 = some p →
        Valid (search dvp name l s).1 p ∧ ((search dvp name l s).1.ncp p).dvp = dvp ∧
          ((search dvp name l s).1.ncp p).name = name) ∧
      ((search dvp name l s).2 = none → ∀ p ∈ l, Valid s p → (s.ncp p).dvp = dvp → (s.ncp p).name ≠ name) := by
  induction l generalizing s with
  | nil => exact ⟨Keeps.refl h, by simp [search], by simp⟩
  | cons p l ih =>
    obtain ⟨hlt, hprev⟩ := hl p List.mem_cons_self
    obtain ⟨hp, hn⟩ := List.nodup_cons.1 hn
    have hne : ∀ q ∈ l, q ≠ p := fun q hq heq => hp (heq ▸ hq)
    unfold search
    split
    · rename_i hst
      have hk := h.PURGE hlt
      have hncp : ∀ q ∈ l, (s.PURGE p).ncp q = s.ncp q := fun q hq => unhash_ncp_ne (hne q hq)
      obtain ⟨hkeep, hsome, hnone⟩ := ih hk.shape (fun q hq => by
        rw [hncp q hq]
        exact hl q (List.mem_cons_of_mem _ hq)) hn
      refine ⟨hk.trans hkeep, hsome, fun he q hq hv hd => ?_⟩
      rcases List.mem_cons.1 hq with rfl | hq
      · exact absurd (hst.symm.trans hv.2.2) Bool.noConfusion
      · rw [← hncp q hq] at hd ⊢
        refine hnone he q hq ?_ hd
        unfold Valid
        rw [hncp q hq]
        exact hv
    · rename_i hst
      split
      · rename_i hkey
        refine ⟨Keeps.refl h, ?_, by simp⟩
        intro q hq
        obtain rfl := Option.some.inj hq
        exact ⟨⟨hlt, hprev, by simpa using hst⟩, hkey⟩
      · rename_i hkey
        obtain ⟨hkeep, hsome, hnone⟩ := ih h (fun q hq => hl q (List.mem_cons_of_mem _ hq)) hn
        refine ⟨hkeep, hsome, fun he q hq hv hd hname => ?_⟩
        rcases List.mem_cons.1 hq with rfl | hq
        · exact hkey ⟨hd, hname⟩
        · exact hnone he q hq hv hd hname

theorem and_not_makeentry (x : BitVec 32) : x &&& ~~~MAKEENTRY &&& MAKEENTRY = 0 := by
  rw [BitVec.and_assoc]
  have : ~~~MAKEENTRY &&& MAKEENTRY = 0 := by decide
  rw [this]
  exact BitVec.and_zero

/-- At most one valid entry has a name. -/
def Unique (s : Cache V M) : Prop :=
  ∀ p q, Valid s p → Valid s q → (s.ncp p).dvp = (s.ncp q).dvp → (s.ncp p).name = (s.ncp q).name → p = q

theorem Keeps.unique (h : Keeps s s') (hu : Unique s) : Unique s' := by
  intro p q hp hq hd hn
  obtain ⟨hp, hep⟩ := h.valid hp
  obtain ⟨hq, heq⟩ := h.valid hq
  rw [hep, heq] at hd hn
  exact hu p q hp hq hd hn

theorem lookup_spec (h : Shape s) (hu : Unique s) (dvp : V) (cnp : Componentname) :
    Keeps s (cacheLookup s dvp cnp).1 ∧
      (∀ vp, (cacheLookup s dvp cnp).2.1 = .found vp →
        ∃ p, Valid s p ∧ (s.ncp p).dvp = dvp ∧ (s.ncp p).name = cnp.name ∧ (s.ncp p).vp = some vp) ∧
      ((cacheLookup s dvp cnp).2.1 = .ENOENT →
        ∃ p, Valid s p ∧ (s.ncp p).dvp = dvp ∧ (s.ncp p).name = cnp.name ∧ (s.ncp p).vp = none ∧
          (cacheLookup s dvp cnp).2.2 = cnp.flags ||| (s.ncp p).vpid) ∧
      ((cacheLookup s dvp cnp).2.1 = .zero → (cacheLookup s dvp cnp).2.2 &&& MAKEENTRY ≠ 0 →
        s.doingcache = true ∧ cnp.name.length ≤ NCHNAMLEN ∧
          ∀ p, Valid (cacheLookup s dvp cnp).1 p → ((cacheLookup s dvp cnp).1.ncp p).dvp = dvp →
            ((cacheLookup s dvp cnp).1.ncp p).name ≠ cnp.name) := by
  have hoff : ∀ x : BitVec 32, (x &&& ~~~MAKEENTRY) &&& MAKEENTRY ≠ 0 → False :=
    fun x hx => hx (and_not_makeentry x)
  unfold cacheLookup
  split
  · exact ⟨Keeps.refl h, by simp, by simp, fun _ hx => (hoff _ hx).elim⟩
  rename_i hdoing
  split
  · exact ⟨Keeps.refl h, by simp, by simp, fun _ hx => (hoff _ hx).elim⟩
  rename_i hlen
  have hchain : ∀ p ∈ s.nchashtbl (NCHHASH s.nchash (s.vId dvp) cnp.name), p < s.numcache ∧ (s.ncp p).lePrev = true := by
    intro p hp
    obtain ⟨hlt, hprev, -⟩ := (h.chain _ p).1 hp
    exact ⟨hlt, hprev⟩
  obtain ⟨hkeep, hsome, hnone⟩ := search_spec dvp cnp.name h hchain (h.nodup _)
  have hdoing : s.doingcache = true := by simpa using hdoing
  rcases hr : search dvp cnp.name (s.nchashtbl (NCHHASH s.nchash (s.vId dvp) cnp.name)) s with ⟨s', _ | p⟩
  · rw [hr] at hkeep hnone
    simp only at hkeep hnone ⊢
    refine ⟨hkeep, by simp, by simp, fun _ _ => ⟨hdoing, by omega, fun p hp hd hn => ?_⟩⟩
    obtain ⟨hv, heq⟩ := hkeep.valid hp
    rw [heq] at hd hn
    have hmem := h.mem_of_valid hv
    rw [hd, hn] at hmem
    exact hnone trivial p hmem hv hd hn
  · rw [hr] at hkeep hsome
    obtain ⟨hv, hd, hn⟩ := hsome p rfl
    simp only at hkeep hv hd hn ⊢
    obtain ⟨hv₀, heq⟩ := hkeep.valid hv
    have hpurge := hkeep.shape.PURGE hv.1
    obtain ⟨htouch, -⟩ := hkeep.shape.TOUCH hv.1
    split
    · rename_i hmake
      refine ⟨hkeep.trans hpurge, by simp, by simp, fun _ hx => absurd hmake hx⟩
    · rcases hvp : (s'.ncp p).vp with _ | vp
      · simp only
        split
        · refine ⟨hkeep.trans hpurge, by simp, by simp, fun _ _ => ⟨hdoing, by omega, fun q hq hdq hnq => ?_⟩⟩
          -- the entry that was found is the only one, and it is gone
          obtain ⟨hvq, heqq⟩ := hpurge.valid hq
          rw [heqq] at hdq hnq
          obtain rfl := hkeep.unique hu q p hvq hv (hdq.trans hd.symm) (hnq.trans hn.symm)
          exact Bool.false_ne_true ((unhash_ncp_self (s := s') q).symm.trans hq.2.1)
        · refine ⟨hkeep.trans htouch, by simp, fun _ => ⟨p, hv₀, ?_⟩, by simp⟩
          rw [← heq]
          exact ⟨hd, hn, hvp, rfl⟩
      · refine ⟨hkeep.trans htouch, ?_, by simp, by simp⟩
        intro vp' hvp'
        obtain rfl := Status.found.inj hvp'
        refine ⟨p, hv₀, ?_⟩
        rw [← heq]
        exact ⟨hd, hn, hvp⟩

theorem lookup_hit (h : Shape s) (hdoing : s.doingcache = true) (hp : Valid s p)
    (hlen : (s.ncp p).name.length ≤ NCHNAMLEN) :
    (cacheLookup s (s.ncp p).dvp ⟨.LOOKUP, MAKEENTRY, (s.ncp p).name⟩).2.1 ≠ .zero := by
  have hchain : ∀ q ∈ s.nchashtbl (NCHHASH s.nchash (s.vId (s.ncp p).dvp) (s.ncp p).name),
      q < s.numcache ∧ (s.ncp q).lePrev = true := by
    intro q hq
    obtain ⟨hlt, hprev, -⟩ := (h.chain _ q).1 hq
    exact ⟨hlt, hprev⟩
  have hnone := (search_spec (s.ncp p).dvp (s.ncp p).name h hchain (h.nodup _)).2.2
  have hmake : ¬MAKEENTRY &&& MAKEENTRY = 0 := by decide
  unfold cacheLookup
  simp only [hdoing, Bool.not_true, Bool.false_eq_true, if_false, Nat.not_lt.2 hlen]
  rcases hr : search (s.ncp p).dvp (s.ncp p).name (s.nchashtbl (NCHHASH s.nchash (s.vId (s.ncp p).dvp) (s.ncp p).name)) s
    with ⟨s', _ | q⟩
  · rw [hr] at hnone
    exact absurd rfl (hnone rfl p (h.mem_of_valid hp) hp rfl)
  · simp only [hmake, if_false]
    rcases hvp : (s'.ncp q).vp with _ | vp <;> simp

end Lookup

/-! ## The sweeps -/

section Sweep
variable {s : Cache V M} (drop : Namecache V → Bool)

theorem sweepChain_spec {l : List Nat} (h : Shape s) (hl : ∀ p ∈ l, p < s.numcache) :
    Keeps s (l.foldl (fun s p => if drop (s.ncp p) then s.PURGE p else s) s) ∧
      ∀ p ∈ l, ((l.foldl (fun s p => if drop (s.ncp p) then s.PURGE p else s) s).ncp p).lePrev = true →
        drop ((l.foldl (fun s p => if drop (s.ncp p) then s.PURGE p else s) s).ncp p) = false := by
  induction l generalizing s with
  | nil => exact ⟨Keeps.refl h, by simp⟩
  | cons p l ih =>
    have hlt := hl p List.mem_cons_self
    have hl' : ∀ q ∈ l, q < s.numcache := fun q hq => hl q (List.mem_cons_of_mem _ hq)
    rw [List.foldl_cons]
    have hkeep : Keeps s (if drop (s.ncp p) then s.PURGE p else s) := by
      split
      · exact h.PURGE hlt
      · exact Keeps.refl h
    have hgone : ((if drop (s.ncp p) then s.PURGE p else s).ncp p).lePrev = true → drop (s.ncp p) = false := by
      intro hprev
      by_contra hd
      rw [if_pos (by simpa using hd)] at hprev
      exact Bool.false_ne_true ((unhash_ncp_self (s := s) p).symm.trans hprev)
    generalize (if drop (s.ncp p) then s.PURGE p else s) = s' at hkeep hgone
    obtain ⟨hrest, hdrop⟩ := ih hkeep.shape (by rw [hkeep.numcache]; exact hl')
    refine ⟨hkeep.trans hrest, fun q hq hprev => ?_⟩
    rcases List.mem_cons.1 hq with rfl | hq
    · have heq := hrest.ncp q hprev
      rw [heq] at hprev ⊢
      rw [hkeep.ncp q hprev]
      exact hgone hprev
    · exact hdrop q hq hprev

theorem sweepChains_spec (is : List Nat) (h : Shape s) :
    Keeps s (is.foldl (fun s i => (s.nchashtbl i).foldl (fun s p => if drop (s.ncp p) then s.PURGE p else s) s) s) ∧
      ∀ i ∈ is, ∀ p ∈ (is.foldl (fun s i =>
          (s.nchashtbl i).foldl (fun s p => if drop (s.ncp p) then s.PURGE p else s) s) s).nchashtbl i,
        drop ((is.foldl (fun s i =>
          (s.nchashtbl i).foldl (fun s p => if drop (s.ncp p) then s.PURGE p else s) s) s).ncp p) = false := by
  induction is generalizing s with
  | nil => exact ⟨Keeps.refl h, by simp⟩
  | cons i is ih =>
    obtain ⟨hkeep, hdrop⟩ := sweepChain_spec drop h (l := s.nchashtbl i) fun p hp => ((h.chain i p).1 hp).1
    rw [List.foldl_cons]
    generalize (s.nchashtbl i).foldl (fun s p => if drop (s.ncp p) then s.PURGE p else s) s = s' at hkeep hdrop
    obtain ⟨hrest, hdrops⟩ := ih hkeep.shape
    refine ⟨hkeep.trans hrest, fun j hj p hp => ?_⟩
    rcases List.mem_cons.1 hj with rfl | hj
    · -- what is still on the chain was on it when it was swept
      obtain ⟨hlt, hprev, hi⟩ := (hrest.shape.chain j p).1 hp
      have hboth := hkeep.trans hrest
      have heq := hrest.ncp p hprev
      have hmem : p ∈ s.nchashtbl j := by
        rw [h.chain, ← hboth.numcache, ← hboth.nchash, ← hboth.ncp p hprev]
        exact ⟨hlt, hprev, hi⟩
      rw [heq] at hprev ⊢
      exact hdrop p hmem hprev
    · exact hdrops j hj p hp

theorem NCHHASH_le (nchash id : BitVec 32) (name : List UInt8) : NCHHASH nchash id name ≤ nchash.toNat := by
  unfold NCHHASH
  rw [BitVec.toNat_and]
  exact Nat.and_le_right

theorem sweep_spec (h : Shape s) :
    Keeps s (sweep s drop) ∧ ∀ p < s.numcache, ((sweep s drop).ncp p).lePrev = true → drop ((sweep s drop).ncp p) = false := by
  obtain ⟨hkeep, hdrop⟩ := sweepChains_spec drop (List.range (s.nchash.toNat + 1)).reverse h
  refine ⟨hkeep, fun p hp hprev => hdrop (NCHHASH s.nchash ((sweep s drop).ncp p).dvpid ((sweep s drop).ncp p).name) ?_ p ?_⟩
  · have := NCHHASH_le s.nchash ((sweep s drop).ncp p).dvpid ((sweep s drop).ncp p).name
    rw [List.mem_reverse, List.mem_range]
    omega
  · refine (hkeep.shape.chain _ p).2 ⟨?_, hprev, ?_⟩
    · rw [hkeep.numcache]
      exact hp
    · rw [hkeep.nchash]
      rfl

end Sweep

/-! ## `cache_enter` -/

section Enter
variable {s : Cache V M}

/-- What the entry to fill is: it is not in use, and the LRU list has all the others. -/
structure Taken (s s' : Cache V M) (p : Nat) : Prop where
  lru : (s'.nclruhead ++ [p]).Perm (List.range s'.numcache)
  nodup : ∀ i, (s'.nchashtbl i).Nodup
  chain : ∀ i q, q ∈ s'.nchashtbl i ↔
    q ≠ p ∧ q < s'.numcache ∧ (s'.ncp q).lePrev = true ∧ i = NCHHASH s'.nchash (s'.ncp q).dvpid (s'.ncp q).name
  vId : s'.vId = s.vId
  vMount : s'.vMount = s.vMount
  doingcache : s'.doingcache = s.doingcache
  ncp : ∀ q ≠ p, s'.ncp q = s.ncp q
  numcache : ∀ q < s'.numcache, q ≠ p → q < s.numcache
  count : (s'.numcache : Int) ≤ max s.desiredvnodes s.numcache

theorem newEntry_spec (h : Shape s) (hnew : newEntry s = some (s', p)) : Taken s s' p := by
  unfold newEntry at hnew
  split at hnew
  · rename_i hlt
    obtain ⟨rfl, rfl⟩ := Prod.mk.inj (Option.some.inj hnew)
    have hother : ∀ q ≠ s.numcache,
        Function.update s.ncp s.numcache { s.ncp s.numcache with lePrev := false } q = s.ncp q :=
      fun q hq => Function.update_of_ne hq _ _
    refine ⟨?_, h.nodup, fun i q => ?_, rfl, rfl, rfl, hother, fun q hq hne => ?_, ?_⟩
    · show (s.nclruhead ++ [s.numcache]).Perm (List.range (s.numcache + 1))
      rw [List.range_succ]
      exact h.lru.append_right _
    · show q ∈ s.nchashtbl i ↔ _
      rw [h.chain]
      by_cases hq : q = s.numcache
      · simp [hq]
      · simp only [hother q hq, hq, ne_eq, not_false_eq_true, true_and]
        constructor
        · rintro ⟨hlt, hrest⟩
          exact ⟨Nat.lt_succ_of_lt hlt, hrest⟩
        · rintro ⟨hlt, hrest⟩
          exact ⟨by omega, hrest⟩
    · have : q < s.numcache + 1 := hq
      omega
    · show ((s.numcache + 1 : Nat) : Int) ≤ _
      omega
  · have hperm := h.lru
    split at hnew
    · rename_i p' l hlru
      rw [hlru] at hperm
      obtain ⟨hs', rfl⟩ := Prod.mk.inj (Option.some.inj hnew)
      have hlru' : (l ++ [p']).Perm (List.range s.numcache) := (List.perm_append_singleton _ _).trans hperm
      simp only at hs'
      split at hs'
      · subst hs'
        refine ⟨hlru', fun i => (h.nodup i).erase p', fun i q => ?_, rfl, rfl, rfl,
          fun q hq => unhash_ncp_ne (s := { s with nclruhead := l }) hq, fun q hq _ => hq, Int.le_max_right _ _⟩
        show q ∈ (s.nchashtbl i).erase p' ↔ _
        rw [(h.nodup i).mem_erase_iff, h.chain]
        by_cases hq : q = p'
        · simp [hq]
        · have := unhash_ncp_ne (s := { s with nclruhead := l }) hq
          simp only [this, hq, ne_eq, not_false_eq_true, true_and]
          rfl
      · rename_i hprev
        subst hs'
        refine ⟨hlru', h.nodup, fun i q => ?_, rfl, rfl, rfl, fun _ _ => rfl, fun q hq _ => hq, Int.le_max_right _ _⟩
        show q ∈ s.nchashtbl i ↔ _
        rw [h.chain]
        by_cases hq : q = p'
        · simp [hq, hprev]
        · simp [hq]
    · cases hnew

/-- The entry that `cache_enter` makes. -/
def entry (s : Cache V M) (dvp : V) (vp : Option V) (cnp : Componentname) : Namecache V :=
  ⟨true, dvp, s.vId dvp, vp, match vp with
    | some vp => s.vId vp
    | none => cnp.flags &&& ISWHITEOUT, cnp.name⟩

/-- `cache_enter` gives up, or fills one entry and leaves the others. -/
theorem enter_spec (h : Shape s) (dvp : V) (vp : Option V) (cnp : Componentname) :
    cacheEnter s dvp vp cnp = s ∨
      Shape (cacheEnter s dvp vp cnp) ∧ (cacheEnter s dvp vp cnp).vId = s.vId ∧
      (cacheEnter s dvp vp cnp).vMount = s.vMount ∧ (cacheEnter s dvp vp cnp).doingcache = s.doingcache ∧
      ((cacheEnter s dvp vp cnp).numcache : Int) ≤ max s.desiredvnodes s.numcache ∧
      ∃ p < (cacheEnter s dvp vp cnp).numcache, (cacheEnter s dvp vp cnp).ncp p = entry s dvp vp cnp ∧
        ∀ q ≠ p, (cacheEnter s dvp vp cnp).ncp q = s.ncp q ∧ (q < (cacheEnter s dvp vp cnp).numcache → q < s.numcache) := by
  unfold cacheEnter
  split
  · exact .inl rfl
  · rcases hnew : newEntry s with _ | ⟨s', p⟩
    · exact .inl rfl
    · right
      have ht := newEntry_spec h hnew
      have hplt : p < s'.numcache := by
        rw [← List.mem_range, ← ht.lru.mem_iff]
        simp
      have hentry : (⟨true, dvp, s'.vId dvp, vp, match vp with
          | some vp => s'.vId vp
          | none => cnp.flags &&& ISWHITEOUT, cnp.name⟩ : Namecache V) = entry s dvp vp cnp := by
        rw [ht.vId]
        rfl
      simp only [hentry]
      refine ⟨⟨ht.lru, fun i => ?_, fun i q => ?_⟩, ht.vId, ht.vMount, ht.doingcache, ht.count, p, hplt,
        Function.update_self p _ _, fun q hq => ⟨?_, fun hlt => ht.numcache q hlt hq⟩⟩
      · simp only [Function.update_apply]
        split
        · refine List.nodup_cons.2 ⟨fun hmem => ?_, ht.nodup _⟩
          exact ((ht.chain _ p).1 hmem).1 rfl
        · exact ht.nodup i
      · by_cases hq : q = p
        · subst hq
          have hold : ∀ j, q ∉ s'.nchashtbl j := fun j hmem => ((ht.chain j q).1 hmem).1 rfl
          simp only [Function.update_self, Function.update_apply]
          split
          · rename_i hi
            simp [hi, hplt, entry, ht.vId]
          · rename_i hi
            simp only [hold i, false_iff, not_and]
            intro _ _ hi'
            rw [ht.vId] at hi
            exact hi hi'
        · simp only [Function.update_of_ne hq]
          have hmem : (q ∈ Function.update s'.nchashtbl (NCHHASH s'.nchash (s'.vId dvp) cnp.name)
              (p :: s'.nchashtbl (NCHHASH s'.nchash (s'.vId dvp) cnp.name)) i) ↔ q ∈ s'.nchashtbl i := by
            rw [Function.update_apply]
            split
            · rename_i hi
              simp [hi, hq]
            · rfl
          rw [hmem, ht.chain]
          simp [hq]
      · exact (Function.update_of_ne hq _ _).trans (ht.ncp q hq)

end Enter

/-! ## Every run -/

section Runs
variable {w : World V M}

/-- What every state of a run has. -/
structure Inv (w : World V M) : Prop where
  shape : Shape w.cache
  unique : Unique w.cache
  short : ∀ p < w.cache.numcache, (w.cache.ncp p).lePrev = true →
    w.cache.doingcache = true ∧ (w.cache.ncp p).name.length ≤ NCHNAMLEN
  asked : ∀ k ∈ w.asked, w.cache.doingcache = true ∧ k.2.length ≤ NCHNAMLEN ∧
    ∀ p, Valid w.cache p → (w.cache.ncp p).dvp = k.1 → (w.cache.ncp p).name ≠ k.2
  latest : ∀ p, Valid w.cache p → Latest w.cache.vMount w.log (w.cache.ncp p).dvp (w.cache.ncp p).name
    (w.cache.ncp p).vp (w.cache.ncp p).vpid

theorem Boot.inv (h : Boot w) : Inv w := by
  have hno : ∀ p, ¬p < w.cache.numcache := by
    rw [h.none]
    omega
  refine ⟨⟨?_, fun i => ?_, fun i p => ?_⟩, fun p _ hp => (hno p hp.1).elim, fun p hp => (hno p hp).elim, ?_,
    fun p hp => (hno p hp.1).elim⟩
  · rw [h.lru, h.none]
    rfl
  · rw [h.chains]
    exact List.nodup_nil
  · rw [h.chains]
    simp [hno p]
  · rw [h.asked]
    simp

/-- An entry that stays valid over a call that does not end it is still the latest. -/
theorem Latest.next {vMount : V → M} {log : List (Event V M)} {dvp : V} {name : List UInt8} {vp : Option V}
    {f : BitVec 32} (h : Latest vMount log dvp name vp f) (hends : ¬Ends vMount dvp name vp op)
    (hheld : Held s dvp name vp) : Latest vMount (⟨op, s⟩ :: log) dvp name vp f := by
  obtain ⟨since, cnp, t, before, hlog, hname, hwhite, hthen, hsince⟩ := h
  refine ⟨⟨op, s⟩ :: since, cnp, t, before, by rw [hlog, List.cons_append], hname, hwhite, hthen, fun e he => ?_⟩
  rcases List.mem_cons.1 he with rfl | he
  · exact ⟨hends, hheld⟩
  · exact hsince e he

theorem held_of_valid (h : Valid s p) : Held s (s.ncp p).dvp (s.ncp p).name (s.ncp p).vp :=
  ⟨p, h, rfl, rfl, rfl⟩

/-- A call after which nothing is valid that was not valid before. -/
structure Quiet (s s' : Cache V M) : Prop where
  shape : Shape s'
  vMount : s'.vMount = s.vMount
  doingcache : s'.doingcache = s.doingcache
  inUse : ∀ p < s'.numcache, (s'.ncp p).lePrev = true → p < s.numcache ∧ s'.ncp p = s.ncp p
  valid : ∀ p, Valid s' p → Valid s p

theorem Keeps.quiet (h : Keeps s s') : Quiet s s' where
  shape := h.shape
  vMount := h.vMount
  doingcache := h.doingcache
  inUse := fun p hp hprev => ⟨h.numcache ▸ hp, h.ncp p hprev⟩
  valid := fun _ hp => (h.valid hp).1

theorem Quiet.ncp (h : Quiet s s') (hp : Valid s' p) : s'.ncp p = s.ncp p :=
  (h.inUse p hp.1 hp.2.1).2

/-- A quiet call keeps the invariant if it ends no entry that stays valid, and if nothing valid has the name
it was asked for. -/
theorem Inv.quiet (h : Inv w) (hq : Quiet w.cache s) {asked : List (V × List UInt8)}
    (hends : ∀ p, Valid s p → ¬Ends w.cache.vMount (w.cache.ncp p).dvp (w.cache.ncp p).name (w.cache.ncp p).vp op)
    (hasked : ∀ k ∈ asked, k ∈ w.asked ∨ w.cache.doingcache = true ∧ k.2.length ≤ NCHNAMLEN ∧
      ∀ p, Valid s p → (s.ncp p).dvp = k.1 → (s.ncp p).name ≠ k.2) : Inv (w.next op s asked) where
  shape := hq.shape
  unique := fun p q hp hq' hd hn => by
    rw [World.next_cache] at hp hq' hd hn
    rw [hq.ncp hp, hq.ncp hq'] at hd hn
    exact h.unique p q (hq.valid p hp) (hq.valid q hq') hd hn
  short := fun p hp hprev => by
    rw [World.next_cache] at hp hprev ⊢
    obtain ⟨hlt, heq⟩ := hq.inUse p hp hprev
    rw [heq] at hprev ⊢
    rw [hq.doingcache]
    exact h.short p hlt hprev
  asked := fun k hk => by
    rw [World.next_cache, hq.doingcache]
    rcases hasked k hk with hk | hk
    · obtain ⟨hdoing, hlen, hno⟩ := h.asked k hk
      refine ⟨hdoing, hlen, fun p hp hd hn => ?_⟩
      have heq : s.ncp p = w.cache.ncp p := hq.ncp hp
      exact hno p (hq.valid p hp) (heq ▸ hd) (heq ▸ hn)
    · exact hk
  latest := fun p hp => by
    rw [World.next_cache] at hp ⊢
    have hheld := held_of_valid hp
    rw [hq.ncp hp] at hheld ⊢
    rw [hq.vMount]
    exact (h.latest p (hq.valid p hp)).next (hends p hp) hheld

theorem Inv.lookup (h : Inv w) (dvp : V) (cnp : Componentname) : Inv (step w (.lookup dvp cnp)) := by
  obtain ⟨hkeep, -, -, hzero⟩ := lookup_spec h.shape h.unique dvp cnp
  refine h.quiet hkeep.quiet (fun _ _ => id) fun k hk => ?_
  split at hk
  · rename_i hask
    rcases List.mem_cons.1 hk with rfl | hk
    · exact .inr (hzero hask.1 hask.2)
    · exact .inl hk
  · exact .inl hk

theorem Inv.purgevfs (h : Inv w) (mp : M) : Inv (step w (.purgevfs mp)) := by
  obtain ⟨hkeep, hdrop⟩ := sweep_spec (fun e => stale w.cache.vId e || decide (w.cache.vMount e.dvp = mp)) h.shape
  refine h.quiet hkeep.quiet (fun p hp hmp => ?_) fun k hk => .inl hk
  have := hdrop p (hkeep.numcache ▸ hp.1) hp.2.1
  rw [hkeep.ncp p hp.2.1, Bool.or_eq_false_iff, decide_eq_false_iff_not] at this
  exact this.2 hmp.symm

theorem Inv.limit (h : Inv w) (n : Int) : Inv (step w (.limit n)) := by
  apply h.quiet
  · exact ⟨⟨h.shape.lru, h.shape.nodup, h.shape.chain⟩, rfl, rfl, fun p hp _ => ⟨hp, rfl⟩, fun p hp => hp⟩
  · exact fun _ _ => id
  · exact fun k hk => .inl hk

theorem stale_update {vId : V → BitVec 32} {e : Namecache V} {v : V} (hd : e.dvp ≠ v) (hv : e.vp ≠ some v) (id : BitVec 32) :
    stale (Function.update vId v id) e = stale vId e := by
  unfold stale
  rw [Function.update_of_ne hd]
  rcases hvp : e.vp with _ | vp
  · rfl
  · have hne : vp ≠ v := by
      rintro rfl
      exact hv hvp
    simp [Function.update_of_ne hne]

/-- `cache_purge` without a wrap gives the vnode its id; with one no entry is left in use. -/
theorem cachePurge_eq (s : Cache V M) (v : V) (hwrap : s.nextvnodeid + 1 ≠ 0) :
    cachePurge s v = { s with nextvnodeid := s.nextvnodeid + 1, vId := Function.update s.vId v (s.nextvnodeid + 1) } := by
  unfold cachePurge
  simp only
  rw [if_pos hwrap]

theorem cachePurge_wrap (h : Shape s) (v : V) (hwrap : s.nextvnodeid + 1 = 0) :
    Quiet s (cachePurge s v) ∧ (cachePurge s v).numcache = s.numcache ∧ ∀ p, ¬Valid (cachePurge s v) p := by
  have h' : Shape { s with nextvnodeid := s.nextvnodeid + 1, vId := Function.update s.vId v (s.nextvnodeid + 1) } :=
    ⟨h.lru, h.nodup, h.chain⟩
  obtain ⟨hkeep, hdrop⟩ := sweep_spec (fun _ => true) h'
  unfold cachePurge
  simp only
  rw [if_neg (not_not.2 hwrap)]
  generalize sweep { s with nextvnodeid := s.nextvnodeid + 1, vId := Function.update s.vId v (s.nextvnodeid + 1) }
    (fun _ => true) = t at hkeep hdrop
  have hno : ∀ p < s.numcache, (t.ncp p).lePrev = true → False := fun p hp hprev => Bool.noConfusion (hdrop p hp hprev)
  refine ⟨⟨⟨hkeep.shape.lru, hkeep.shape.nodup, hkeep.shape.chain⟩, hkeep.vMount, hkeep.doingcache,
    fun p hp hprev => (hno p (hkeep.numcache ▸ hp) hprev).elim, fun p hp => ?_⟩, hkeep.numcache, fun p hp => ?_⟩
  · exact (hno p (hkeep.numcache ▸ hp.1) hp.2.1).elim
  · exact hno p (hkeep.numcache ▸ hp.1) hp.2.1

theorem Inv.purge (h : Inv w) (v : V) (hfresh : Fresh w (.purge v)) : Inv (step w (.purge v)) := by
  by_cases hwrap : w.cache.nextvnodeid + 1 = 0
  · obtain ⟨hq, -, hno⟩ := cachePurge_wrap h.shape v hwrap
    exact h.quiet hq (fun p hp => (hno p hp).elim) fun k hk => .inl hk
  · have hfresh := hfresh.resolve_left hwrap
    have hother : ∀ p, Valid (cachePurge w.cache v) p → (w.cache.ncp p).dvp ≠ v ∧ (w.cache.ncp p).vp ≠ some v := by
      intro p hp
      rw [cachePurge_eq _ _ hwrap] at hp
      by_contra hn
      have := hfresh p hp.1 hp.2.1 (by tauto)
      exact Bool.noConfusion (hp.2.2.symm.trans this)
    refine h.quiet ⟨?_, ?_, ?_, ?_, fun p hp => ?_⟩ (fun p hp hends => ?_) fun k hk => .inl hk
    · rw [cachePurge_eq _ _ hwrap]
      exact ⟨h.shape.lru, h.shape.nodup, h.shape.chain⟩
    · rw [cachePurge_eq _ _ hwrap]
    · rw [cachePurge_eq _ _ hwrap]
    · rw [cachePurge_eq _ _ hwrap]
      exact fun p hp _ => ⟨hp, rfl⟩
    · obtain ⟨hd, hv⟩ := hother p hp
      rw [cachePurge_eq _ _ hwrap] at hp
      exact ⟨hp.1, hp.2.1, (stale_update hd hv _).symm.trans hp.2.2⟩
    · obtain ⟨hd, hv⟩ := hother p hp
      rcases hends with rfl | hends
      · exact hd rfl
      · exact hv hends.symm

theorem Inv.enter (h : Inv w) (dvp : V) (vp : Option V) (cnp : Componentname) (hask : (dvp, cnp.name) ∈ w.asked) :
    Inv (step w (.enter dvp vp cnp)) := by
  obtain ⟨hdoing, hlen, hno⟩ := h.asked _ hask
  have hsub : ∀ k ∈ w.asked.filter (· ≠ (dvp, cnp.name)), k ∈ w.asked ∧ k ≠ (dvp, cnp.name) := by
    intro k hk
    simpa using List.mem_filter.1 hk
  rcases enter_spec h.shape dvp vp cnp with hsame | ⟨hshape, hid, hmount, hcache, -, p, hp, hentry, hrest⟩
  · have hq : Quiet w.cache (cacheEnter w.cache dvp vp cnp) := by
      rw [hsame]
      exact (Keeps.refl h.shape).quiet
    refine h.quiet hq (fun q hq' hends => ?_) fun k hk => .inl (hsub k hk).1
    exact hno q (hq.valid q hq') hends.1.symm hends.2.symm
  · -- every valid entry but the new one was valid before
    have hold : ∀ q, Valid (cacheEnter w.cache dvp vp cnp) q → q ≠ p →
        Valid w.cache q ∧ (cacheEnter w.cache dvp vp cnp).ncp q = w.cache.ncp q := by
      intro q hq hne
      obtain ⟨heq, hlt⟩ := hrest q hne
      have hst := hq.2.2
      rw [hid, heq] at hst
      exact ⟨⟨hlt hq.1, heq ▸ hq.2.1, hst⟩, heq⟩
    have hkey : ∀ q, Valid (cacheEnter w.cache dvp vp cnp) q → q ≠ p →
        ((cacheEnter w.cache dvp vp cnp).ncp q).dvp = dvp → ((cacheEnter w.cache dvp vp cnp).ncp q).name ≠ cnp.name := by
      intro q hq hne
      obtain ⟨hv, heq⟩ := hold q hq hne
      rw [heq]
      exact hno q hv
    refine ⟨hshape, fun q r hq hr hd hn => ?_, fun q hq hprev => ?_, fun k hk => ?_, fun q hq => ?_⟩
    · change ((cacheEnter w.cache dvp vp cnp).ncp q).dvp = ((cacheEnter w.cache dvp vp cnp).ncp r).dvp at hd
      change ((cacheEnter w.cache dvp vp cnp).ncp q).name = ((cacheEnter w.cache dvp vp cnp).ncp r).name at hn
      by_cases hqp : q = p <;> by_cases hrp : r = p
      · rw [hqp, hrp]
      · subst hqp
        rw [hentry] at hd hn
        exact absurd hn.symm (hkey r hr hrp hd.symm)
      · subst hrp
        rw [hentry] at hd hn
        exact absurd hn (hkey q hq hqp hd)
      · obtain ⟨hvq, heq⟩ := hold q hq hqp
        obtain ⟨hvr, her⟩ := hold r hr hrp
        rw [heq, her] at hd hn
        exact h.unique q r hvq hvr hd hn
    · show (cacheEnter w.cache dvp vp cnp).doingcache = true ∧ ((cacheEnter w.cache dvp vp cnp).ncp q).name.length ≤ _
      refine ⟨hcache.trans hdoing, ?_⟩
      by_cases hqp : q = p
      · rw [hqp, hentry]
        exact hlen
      · obtain ⟨heq, hlt⟩ := hrest q hqp
        have hprev : (w.cache.ncp q).lePrev = true := heq ▸ hprev
        rw [heq]
        exact (h.short q (hlt hq) hprev).2
    · obtain ⟨hk, hne⟩ := hsub k hk
      obtain ⟨-, hklen, hkno⟩ := h.asked k hk
      refine ⟨hcache.trans hdoing, hklen, fun q hq hd hn => ?_⟩
      change ((cacheEnter w.cache dvp vp cnp).ncp q).dvp = k.1 at hd
      change ((cacheEnter w.cache dvp vp cnp).ncp q).name = k.2 at hn
      by_cases hqp : q = p
      · rw [hqp, hentry] at hd hn
        exact hne (Prod.ext hd.symm hn.symm)
      · obtain ⟨hv, heq⟩ := hold q hq hqp
        rw [heq] at hd hn
        exact hkno q hv hd hn
    · show Latest (cacheEnter w.cache dvp vp cnp).vMount (⟨.enter dvp vp cnp, cacheEnter w.cache dvp vp cnp⟩ :: w.log)
        ((cacheEnter w.cache dvp vp cnp).ncp q).dvp ((cacheEnter w.cache dvp vp cnp).ncp q).name
        ((cacheEnter w.cache dvp vp cnp).ncp q).vp ((cacheEnter w.cache dvp vp cnp).ncp q).vpid
      have hheld := held_of_valid hq
      change Held (cacheEnter w.cache dvp vp cnp) ((cacheEnter w.cache dvp vp cnp).ncp q).dvp
        ((cacheEnter w.cache dvp vp cnp).ncp q).name ((cacheEnter w.cache dvp vp cnp).ncp q).vp at hheld
      by_cases hqp : q = p
      · subst hqp
        rw [hentry] at hheld ⊢
        refine ⟨[], cnp, _, w.log, rfl, rfl, fun hvp => ?_, hheld, by simp⟩
        change vp = none at hvp
        subst hvp
        rfl
      · obtain ⟨hv, heq⟩ := hold q hq hqp
        have hne := hkey q hq hqp
        rw [heq] at hheld hne ⊢
        rw [hmount]
        refine (h.latest q hv).next (fun hends => ?_) hheld
        exact hne hends.1.symm hends.2.symm

theorem Inv.step (h : Inv w) (hproper : Proper w op) (hfresh : Fresh w op) : Inv (step w op) := by
  cases op with
  | lookup dvp cnp => exact h.lookup dvp cnp
  | enter dvp vp cnp => exact h.enter dvp vp cnp hproper
  | purge v => exact h.purge v hfresh
  | purgevfs mp => exact h.purgevfs mp
  | limit n => exact h.limit n

theorem Inv.count (h : Inv w) (op : Op V M) :
    ((NameCache.step w op).cache.numcache : Int) ≤ max w.cache.desiredvnodes w.cache.numcache := by
  have hle := Int.le_max_right w.cache.desiredvnodes w.cache.numcache
  cases op with
  | lookup dvp cnp =>
    show ((cacheLookup w.cache dvp cnp).1.numcache : Int) ≤ _
    rw [(lookup_spec h.shape h.unique dvp cnp).1.numcache]
    exact hle
  | enter dvp vp cnp =>
    show ((cacheEnter w.cache dvp vp cnp).numcache : Int) ≤ _
    rcases enter_spec h.shape dvp vp cnp with hsame | ⟨-, -, -, -, hcount, -⟩
    · rw [hsame]
      exact hle
    · exact hcount
  | purge v =>
    show ((cachePurge w.cache v).numcache : Int) ≤ _
    by_cases hwrap : w.cache.nextvnodeid + 1 = 0
    · rw [(cachePurge_wrap h.shape v hwrap).2.1]
      exact hle
    · rw [cachePurge_eq _ _ hwrap]
      exact hle
  | purgevfs mp =>
    show ((sweep w.cache _).numcache : Int) ≤ _
    rw [(sweep_spec _ h.shape).1.numcache]
    exact hle
  | limit n => exact hle

theorem Inv.good (h : Inv w) : Good w where
  found := fun dvp cnp vp hvp => by
    obtain ⟨p, hp, hd, hn, hv⟩ := (lookup_spec h.shape h.unique dvp cnp).2.1 vp hvp
    have hl := h.latest p hp
    rw [hd, hn, hv] at hl
    exact ⟨_, hl⟩
  enoent := fun dvp cnp hst => by
    obtain ⟨p, hp, hd, hn, hv, hflags⟩ := (lookup_spec h.shape h.unique dvp cnp).2.2.1 hst
    have hl := h.latest p hp
    rw [hd, hn, hv] at hl
    exact ⟨_, hl, hflags⟩
  unique := h.unique
  lru := h.shape.lru
  chains := h.shape.nodup
  hashed := fun p => by
    constructor
    · rintro ⟨i, hi⟩
      obtain ⟨hlt, hprev, -⟩ := (h.shape.chain i p).1 hi
      exact ⟨hlt, hprev⟩
    · rintro ⟨hlt, hprev⟩
      exact ⟨_, (h.shape.chain _ p).2 ⟨hlt, hprev, rfl⟩⟩
  count := h.count

/-- A vnode that was purged last is in no answer of a sound cache. -/
theorem Good.purged (h : Good w) {v : V} {log : List (Event V M)} (hlog : w.log = ⟨.purge v, s⟩ :: log)
    (hshape : Shape w.cache) (hp : Valid w.cache p)
    (hshort : w.cache.doingcache = true ∧ (w.cache.ncp p).name.length ≤ NCHNAMLEN) :
    (w.cache.ncp p).dvp ≠ v ∧ (w.cache.ncp p).vp ≠ some v := by
  have hends : ∀ dvp name vp f, Latest w.cache.vMount w.log dvp name vp f → dvp ≠ v ∧ vp ≠ some v := by
    rintro dvp name vp f ⟨since, cnp, t, before, heq, -, -, -, hsince⟩
    rw [hlog] at heq
    rcases since with _ | ⟨e, since⟩
    · cases (List.cons.inj heq).1
    · obtain rfl := (List.cons.inj heq).1
      have := (hsince _ List.mem_cons_self).1
      unfold Ends at this
      exact ⟨fun he => this (.inl he.symm), fun he => this (.inr he.symm)⟩
  obtain ⟨-, hfound, henoent, -⟩ := lookup_spec hshape h.unique (w.cache.ncp p).dvp ⟨.LOOKUP, MAKEENTRY, (w.cache.ncp p).name⟩
  have hhit := lookup_hit hshape hshort.1 hp hshort.2
  rcases hst : (cacheLookup w.cache (w.cache.ncp p).dvp ⟨.LOOKUP, MAKEENTRY, (w.cache.ncp p).name⟩).2.1 with _ | vp | _
  · exact absurd hst hhit
  · obtain ⟨q, hq, hd, hn, hv⟩ := hfound vp hst
    obtain rfl := h.unique p q hp hq hd.symm hn.symm
    obtain ⟨f, hl⟩ := h.found _ _ vp hst
    rw [hv]
    exact hends _ _ _ _ hl
  · obtain ⟨q, hq, hd, hn, hv, -⟩ := henoent hst
    obtain rfl := h.unique p q hp hq hd.symm hn.symm
    obtain ⟨f, hl, -⟩ := h.enoent _ _ hst
    rw [hv]
    exact hends _ _ _ _ hl

/-- A purge that gives a vnode an id under which an entry of it is in use is not sound. -/
theorem Inv.not_good (h : Inv w) (hfresh : ¬Fresh w op) : ¬Good (NameCache.step w op) := by
  intro hgood
  cases op with
  | purge v =>
    simp only [Fresh, not_or, not_forall] at hfresh
    obtain ⟨hwrap, p, hp, hprev, hname, hst⟩ := hfresh
    have hcache : (NameCache.step w (.purge v)).cache =
        { w.cache with nextvnodeid := w.cache.nextvnodeid + 1, vId := Function.update w.cache.vId v (w.cache.nextvnodeid + 1) } :=
      cachePurge_eq _ _ hwrap
    have hshape : Shape (NameCache.step w (.purge v)).cache := by
      rw [hcache]
      exact ⟨h.shape.lru, h.shape.nodup, h.shape.chain⟩
    have hvalid : Valid (NameCache.step w (.purge v)).cache p := by
      rw [hcache]
      exact ⟨hp, hprev, by simpa using hst⟩
    have hno := hgood.purged rfl hshape hvalid (by
      rw [hcache]
      exact h.short p hp hprev)
    rw [hcache] at hno
    exact hname.elim hno.1 hno.2
  | lookup | enter | purgevfs | limit => exact hfresh trivial

/-- In every state of a run the cache is sound and well formed, exactly if every `cache_purge` of it is
`Fresh`. -/
theorem cache_runs (w : World V M) (hw : Boot w) (ops : List (Op V M)) (hops : Along NameCache.step Proper w ops) :
    (∀ t ∈ states NameCache.step w ops, Good t) ↔ Along NameCache.step Fresh w ops :=
  states_iff_along (fun _ _ h hproper hfresh => h.step hproper hfresh) (fun _ h => h.good)
    (fun _ _ h _ hfresh => h.not_good hfresh) hw.inv hops

end Runs

/-! ## Two runs -/

/-- The cache after `nchinit`, with vnodes that are numbers on one mount. -/
def booted : World Nat Unit where
  cache :=
    { vId := fun _ => 0, vMount := fun _ => (), nextvnodeid := 0, doingcache := true, desiredvnodes := 100,
      numcache := 0, ncp := fun _ => ⟨false, 0, 0, none, 0, []⟩, nclruhead := [], nchash := 63, nchashtbl := fun _ => [] }
  asked := []
  log := []

theorem boot_booted : Boot booted := ⟨rfl, fun _ => rfl, rfl, rfl, rfl⟩

/-- A name is looked up, with an entry to be made. -/
def nameA : Componentname := ⟨.LOOKUP, MAKEENTRY, [97]⟩

/-- A name is entered and found; then its vnode is purged. -/
def shortRun : List (Op Nat Unit) :=
  [.lookup 1 nameA, .enter 1 (some 2) nameA, .lookup 1 nameA, .purge 2, .lookup 1 nameA, .enter 1 none nameA, .purgevfs ()]

theorem cache_runs_short : Good (final step booted shortRun) :=
  (cache_runs booted boot_booted shortRun (by decide +kernel)).2 (by decide +kernel) _ (final_mem_states _ _ _)

/-- A vnode that is purged again and again, without a wrap. -/
theorem purges_final (v : V) (k : Nat) {w : World V M} (h : w.cache.nextvnodeid.toNat + (k + 1) < 2 ^ 32) :
    (final step w (List.replicate (k + 1) (.purge v))).cache = { w.cache with
      nextvnodeid := w.cache.nextvnodeid + BitVec.ofNat 32 (k + 1)
      vId := Function.update w.cache.vId v (w.cache.nextvnodeid + BitVec.ofNat 32 (k + 1)) } ∧
    Along step Proper w (List.replicate (k + 1) (.purge v)) := by
  have hwrap : w.cache.nextvnodeid + 1 ≠ 0 := by
    intro h0
    have := congrArg BitVec.toNat h0
    rw [BitVec.toNat_add] at this
    simp at this
    omega
  have hcache : (step w (.purge v)).cache = { w.cache with
      nextvnodeid := w.cache.nextvnodeid + 1, vId := Function.update w.cache.vId v (w.cache.nextvnodeid + 1) } :=
    cachePurge_eq _ _ hwrap
  induction k generalizing w with
  | zero => exact ⟨hcache, trivial, trivial⟩
  | succ k ih =>
    have hnext : (step w (.purge v)).cache.nextvnodeid = w.cache.nextvnodeid + 1 := by rw [hcache]
    have hnat : (w.cache.nextvnodeid + 1).toNat = w.cache.nextvnodeid.toNat + 1 := by
      rw [BitVec.toNat_add]
      simp
      omega
    have hlt : (step w (.purge v)).cache.nextvnodeid.toNat + (k + 1) < 2 ^ 32 := by
      rw [hnext, hnat]
      omega
    have hwrap' : (step w (.purge v)).cache.nextvnodeid + 1 ≠ 0 := by
      intro h0
      have := congrArg BitVec.toNat h0
      rw [BitVec.toNat_add] at this
      simp at this
      omega
    obtain ⟨hfinal, halong⟩ := ih hlt hwrap' (cachePurge_eq _ _ hwrap')
    have hsum : w.cache.nextvnodeid + 1 + BitVec.ofNat 32 (k + 1) = w.cache.nextvnodeid + BitVec.ofNat 32 (k + 1 + 1) := by
      rw [BitVec.add_assoc]
      congr 1
      apply BitVec.eq_of_toNat_eq
      simp only [BitVec.toNat_add, BitVec.toNat_ofNat]
      simp
      omega
    refine ⟨?_, trivial, halong⟩
    show (final step (step w (.purge v)) (List.replicate (k + 1) (.purge v))).cache = _
    rw [hfinal, hcache]
    simp only [Function.update_idem, hsum]

/-- Ids are used up, vnode 1 having the id 2. -/
def usedUp (k : Nat) : List (Op Nat Unit) := [.purge 0, .purge 1] ++ List.replicate (k + 1) (.purge 0)

theorem usedUp_final {k : Nat} (hk : k + 3 < 2 ^ 32) :
    (final step booted (usedUp k)).cache = { booted.cache with
      nextvnodeid := 2 + BitVec.ofNat 32 (k + 1)
      vId := Function.update (Function.update (Function.update (fun _ => 0) 0 1) 1 2) 0 (2 + BitVec.ofNat 32 (k + 1)) } ∧
    Along step Proper booted (usedUp k) := by
  obtain ⟨hcache, halong⟩ := purges_final (0 : Nat) k (w := final step booted [.purge 0, .purge 1]) (by
    have : (final step booted [.purge 0, .purge 1]).cache.nextvnodeid.toNat = 2 := by decide +kernel
    omega)
  have hused : final step booted (usedUp k) =
      final step (final step booted [.purge 0, .purge 1]) (List.replicate (k + 1) (.purge 0)) := List.foldl_append
  rw [hused]
  exact ⟨hcache, (along_append _ _ _ _ _).2 ⟨by decide +kernel, halong⟩⟩

/-- The ids wrap around; then a name in the directory 1 is entered, and the directory is purged. -/
def wrapRun : List (Op Nat Unit) := [.purge 0, .lookup 1 nameA, .enter 1 (some 2) nameA, .purge 1]

/-- The cache when the next id wraps around. -/
def aboutToWrap : Cache Nat Unit :=
  { booted.cache with
    nextvnodeid := 0xffffffff
    vId := Function.update (Function.update (Function.update (fun _ => 0) 0 1) 1 2) 0 0xffffffff }

/-- The vnode gets the id it had, and the name that was purged is found. -/
theorem wrapRun_found {w : World Nat Unit} (hcache : w.cache = aboutToWrap) :
    Along step Proper w wrapRun ∧ ¬Good (final step w wrapRun) := by
  refine ⟨⟨trivial, trivial, ?_, trivial, trivial⟩, fun hgood => ?_⟩
  · have hzero : (cacheLookup (step w (.purge 0)).cache 1 nameA).2.1 = .zero ∧
        (cacheLookup (step w (.purge 0)).cache 1 nameA).2.2 &&& MAKEENTRY ≠ 0 := by
      simp only [step, World.next_cache]
      rw [hcache]
      decide +kernel
    show (1, nameA.name) ∈ if _ then (1, nameA.name) :: w.asked else w.asked
    rw [if_pos hzero]
    exact List.mem_cons_self
  · have hfound : (cacheLookup (final step w wrapRun).cache 1 nameA).2.1 = .found 2 := by
      simp only [final, wrapRun, List.foldl_cons, List.foldl_nil, step, World.next]
      rw [hcache]
      decide +kernel
    obtain ⟨f, since, cnp, t, before, hlog, -, -, -, hsince⟩ := hgood.found 1 nameA 2 hfound
    rcases since with _ | ⟨e, since⟩
    · cases (List.cons.inj hlog).1
    · obtain rfl := (List.cons.inj hlog).1
      exact (hsince _ List.mem_cons_self).1 (.inl rfl)

/-- From boot, after `2 ^ 32 - 1` ids. -/
theorem purged_name_found : Along step Proper booted (usedUp 4294967292 ++ wrapRun) ∧
    ¬Good (final step booted (usedUp 4294967292 ++ wrapRun)) := by
  obtain ⟨hcache, halong⟩ := usedUp_final (k := 4294967292) (by decide)
  have hwrap : (2 : BitVec 32) + BitVec.ofNat 32 (4294967292 + 1) = 0xffffffff := by decide
  rw [hwrap] at hcache
  generalize usedUp 4294967292 = ops at hcache halong ⊢
  obtain ⟨hproper, hbad⟩ := wrapRun_found hcache
  refine ⟨(along_append _ _ _ _ _).2 ⟨halong, hproper⟩, ?_⟩
  have hfinal : final step booted (ops ++ wrapRun) = final step (final step booted ops) wrapRun := List.foldl_append
  rw [hfinal]
  exact hbad

end BsdKernel.NameCache
