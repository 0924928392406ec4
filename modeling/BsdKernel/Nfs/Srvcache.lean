import BsdKernel.Lib.Recency
/-!
# The duplicate request cache of the NFS server

`nfs/nfs_srvcache.c` and the loop of `nfssvc` in `nfs/nfs_syscalls.c`. Any number of nfsds receive requests, look each up,
execute what is not answered from the cache, and note the reply. They switch where they sleep: on a locked entry, where an
mbuf is waited for, and while a request is executed.

An nfsd without an address of its peer does not use the cache and is left out, and so are the statistics. What stops is an
access to memory that is free, or to the wrong member of a union, and the panic.
-/

namespace BsdKernel.Srvcache

open BsdKernel.Lib

/-! ## Data -/

def NFSRVCACHESIZ : Nat := 128
def NFSRCHSZ : Nat := 32
def NFS_NPROCS : Nat := 18
def RC_DELAY : Int := 2

abbrev Proc : Type := Fin NFS_NPROCS

/-- The place of an entry in `nfsrvcache`. -/
abbrev Ix : Type := Fin NFSRVCACHESIZ

/-- A socket address: its family, and the host for `AF_INET`. -/
inductive Sockaddr
  | inet (s_addr : UInt32)
  | other (sa_family : UInt8)
  deriving DecidableEq

/-- The mbuf of an address: where `m_data` points, as the mbuf there, and the bytes of its own. -/
structure Mbuf where
  m_data : Nat
  m_dat : Sockaddr

inductive RcState
  | unused
  | inprog
  | done
  deriving DecidableEq

/-- `rc_un`; a chain of mbufs is named by a number. -/
inductive RcUn
  | repmb (m : Nat)
  | repstat (status : Int)
  deriving DecidableEq

/-- `struct nfsrvcache`, with the bits of `rc_flag`. -/
structure Nfsrvcache where
  rc_state : RcState
  locked : Bool
  wanted : Bool
  repstatus : Bool
  repmbuf : Bool
  rc_nam : Mbuf
  rc_xid : UInt32
  rc_proc : Proc
  rc_timestamp : Int
  rc_un : RcUn

/-- What identifies a request. -/
structure Key where
  addr : Sockaddr
  xid : UInt32
  proc : Proc
  deriving DecidableEq

/-- The entry is for this request: `rc_nam` is a copy of the mbuf, its bytes included. -/
def Nfsrvcache.key (e : Nfsrvcache) : Key := ⟨e.rc_nam.m_dat, e.rc_xid, e.rc_proc⟩

/-- A reply: its header, and what follows. -/
structure Reply where
  xid : UInt32
  status : Int
  body : List UInt8
  deriving DecidableEq

/-- A request that an nfsd works on; `nam` is the mbuf with the address. -/
structure Req where
  nam : Nat
  xid : UInt32
  proc : Proc
  deriving DecidableEq

/-- What the execution of a request gave: `none` if there is no valid reply, else `repstat` and the reply. -/
abbrev Outcome : Type := Option (Int × Reply)

/-- Where an nfsd is. -/
inductive Pc
  | idle
  | search (q : Req)
  | hitWait (q : Req) (i : Ix)
  | missWait (q : Req) (i : Ix)
  | missAwake (q : Req) (i : Ix)
  | replying (q : Req) (i : Ix)
  | running (q : Req)
  | update (q : Req) (o : Outcome)
  | updWait (q : Req) (o : Outcome) (i : Ix)
  | saving (q : Req) (st : Int) (r : Reply) (i : Ix)
  | finished (q : Req)

/-- The cache, the address in each mbuf, the cached replies, and the nfsds. The hash chains and the LRU list are lists of entries. -/
structure Srv where
  ent : Ix → Nfsrvcache
  lru : List Ix
  chain : Fin NFSRCHSZ → List Ix
  dat : Nat → Sockaddr
  replies : Nat → Option Reply
  next : Nat
  procs : Nat → Pc

inductive Stop
  | fault
  | panic
  deriving DecidableEq

/-- What is seen of a run. -/
inductive Happening
  | looked (k : Key)
  | began (k : Key)
  | done (k : Key) (r : Option Reply)
  | answered (k : Key) (r : Reply)
  | dropped (k : Key)
  deriving DecidableEq

/-! ## Tables -/

def nonidempotent (proc : Proc) : Bool :=
  [false, false, true, false, false, false, false, false, true, true, true, true, true, true, true, true, false, false].getD proc false

/-- The reply is a status only. -/
def repliesstatus (proc : Proc) : Bool :=
  [false, false, false, false, false, false, false, false, false, false, true, true, true, true, false, true, false, false].getD proc false

def NFSRCHASH (xid : UInt32) : Fin NFSRCHSZ := ⟨((xid + (xid >>> 16)) &&& 31).toNat % 32, Nat.mod_lt _ (by decide)⟩

def nfs_netaddr_match : Sockaddr → Sockaddr → Bool
  | .inet a, .inet b => a == b
  | _, _ => false

/-- `nfs_rephead` with nothing behind the header. -/
def nfs_rephead (xid : UInt32) (err : Int) : Reply := ⟨xid, err, []⟩

/-- `nfsm_reply` at the end of a procedure. -/
def nfsm_reply (q : Req) (error : Int) (body : List UInt8) : Reply :=
  if error ≠ 0 ∨ repliesstatus q.proc then nfs_rephead q.xid error else ⟨q.xid, error, body⟩

namespace Srv

/-- The request a process works on, as the server knows it. -/
def key (s : Srv) (q : Req) : Key := ⟨s.dat q.nam, q.xid, q.proc⟩

/-! ## Small changes -/

def setEnt (s : Srv) (i : Ix) (e : Nfsrvcache) : Srv := { s with ent := Function.update s.ent i e }

def setPc (s : Srv) (p : Nat) (pc : Pc) : Srv := { s with procs := Function.update s.procs p pc }

/-- Where a process is after `wakeup`. -/
def wake (i : Ix) : Pc → Pc
  | .hitWait q j => if j = i then .search q else .hitWait q j
  | .missWait q j => if j = i then .missAwake q j else .missWait q j
  | .updWait q o j => if j = i then .update q o else .updWait q o j
  | pc => pc

/-- The lock is given up, and those waiting for it are woken. -/
def release (s : Srv) (i : Ix) : Srv :=
  let e := s.ent i
  if e.wanted then { s.setEnt i { e with locked := false, wanted := false } with procs := fun p => wake i (s.procs p) }
  else s.setEnt i { e with locked := false }

/-- `tsleep` on a locked entry. -/
def sleep (s : Srv) (p : Nat) (i : Ix) (pc : Pc) : Srv := (s.setEnt i { s.ent i with wanted := true }).setPc p pc

def put_at_head (s : Srv) (i : Ix) : Srv := { s with lru := touch i s.lru }

/-- `remque` from the chain an entry is on, if it is on one, and `insque`. -/
def rehash (s : Srv) (i : Ix) (h : Fin NFSRCHSZ) : Srv :=
  let chain := fun g => (s.chain g).erase i
  { s with chain := Function.update chain h (i :: chain h) }

/-- The reply cached in an entry, if it can be read. -/
def cached (s : Srv) (e : Nfsrvcache) (xid : UInt32) : Option Reply :=
  match e.repstatus, e.rc_un with
  | true, .repstat status => some (nfs_rephead xid status)
  | true, .repmb _ => none
  | false, .repmb m => s.replies m
  | false, .repstat _ => none

/-! ## The cache -/

/-- `nfsrv_initcache` -/
def initcache (s : Srv) : Srv :=
  { s with
    ent := fun i => { s.ent i with rc_state := .unused, locked := false, wanted := false, repstatus := false, repmbuf := false }
    lru := (List.finRange NFSRVCACHESIZ).reverse
    chain := fun _ => [] }

/-- The entry of a request on its hash chain. The address is compared where `m_data` points. -/
def lookup (s : Srv) (q : Req) : Option Ix :=
  (s.chain (NFSRCHASH q.xid)).find? fun i =>
    q.xid == (s.ent i).rc_xid && q.proc == (s.ent i).rc_proc && nfs_netaddr_match (s.dat q.nam) (s.dat (s.ent i).rc_nam.m_data)

/-- `m_freem` of a cached reply. -/
def freem (s : Srv) : RcUn → Except Stop Srv
  | .repstat _ => .error .fault
  | .repmb m =>
    match s.replies m with
    | none => .error .fault
    | some _ => .ok { s with replies := Function.update s.replies m none }

/-- The entry is taken for the request. -/
def reuse (s : Srv) (q : Req) (i : Ix) : Srv :=
  let e := s.ent i
  ((s.put_at_head i).rehash i (NFSRCHASH q.xid)).setEnt i
    { e with
      rc_state := .inprog, locked := false, wanted := false, repstatus := false, repmbuf := false
      rc_nam := ⟨q.nam, s.dat q.nam⟩, rc_xid := q.xid, rc_proc := q.proc }

/-- The end of `nfsrv_getcache`, with the entry that was last of the LRU list when the search failed. -/
def miss (s : Srv) (p : Nat) (q : Req) (i : Ix) : Except Stop (Srv × List Happening) :=
  let e := s.ent i
  if e.locked then .ok (s.sleep p i (.missWait q i), [])
  else
    let s' := (s.reuse q i).setPc p (.running q)
    if e.repmbuf then (s'.freem e.rc_un).map fun s'' => (s'', [.began (s.key q)])
    else .ok (s', [.began (s.key q)])

/-- An entry that was found and locked. -/
def hit (s : Srv) (p : Nat) (q : Req) (i : Ix) (time : Int) : Except Stop (Srv × List Happening) :=
  let s' := (s.setEnt i { s.ent i with locked := true }).put_at_head i
  let e := s'.ent i
  match e.rc_state with
  | .unused => .error .panic
  | .inprog => .ok ((s'.release i).setPc p (.finished q), [.dropped (s.key q)])
  | .done =>
    if time - e.rc_timestamp < RC_DELAY then .ok ((s'.release i).setPc p (.finished q), [.dropped (s.key q)])
    else if e.repstatus || e.repmbuf then .ok (s'.setPc p (.replying q i), [])
    else .ok (((s'.setEnt i { e with rc_state := .inprog }).release i).setPc p (.running q), [.began (s.key q)])

/-- `nfsrv_getcache`, from its start or from `loop`. -/
def getcache (s : Srv) (p : Nat) (q : Req) (time : Int) : Except Stop (Srv × List Happening) :=
  match s.lookup q with
  | some i => if (s.ent i).locked then .ok (s.sleep p i (.hitWait q i), []) else s.hit p q i time
  | none =>
    match s.lru.getLast? with
    | none => .error .fault
    | some i => s.miss p q i

/-- The reply is copied or made, and the lock given up. -/
def answer (s : Srv) (p : Nat) (q : Req) (i : Ix) (time : Int) : Except Stop (Srv × List Happening) :=
  match s.cached (s.ent i) q.xid with
  | none => .error .fault
  | some r =>
    .ok (((s.setEnt i { s.ent i with rc_timestamp := time }).release i).setPc p (.finished q), [.answered (s.key q) r])

/-- `nfsrv_updatecache` with an entry that was found and locked. -/
def note (s : Srv) (p : Nat) (q : Req) (o : Outcome) (i : Ix) (time : Int) : Srv :=
  let e := { s.ent i with locked := true, rc_state := .done }
  match o with
  | none => ((s.setEnt i { e with rc_timestamp := 0 }).release i).setPc p (.finished q)
  | some (st, r) =>
    let e := { e with rc_timestamp := time }
    if nonidempotent q.proc then
      if repliesstatus q.proc then
        ((s.setEnt i { e with rc_un := .repstat st, repstatus := true }).release i).setPc p (.finished q)
      else (s.setEnt i e).setPc p (.saving q st r i)
    else ((s.setEnt i e).release i).setPc p (.finished q)

/-- `nfsrv_updatecache`, from its start or from `loop`. -/
def updatecache (s : Srv) (p : Nat) (q : Req) (o : Outcome) (time : Int) : Srv :=
  match s.lookup q with
  | none => s.setPc p (.finished q)
  | some i => if (s.ent i).locked then s.sleep p i (.updWait q o i) else s.note p q o i time

/-- `m_copym` of the reply, and the lock given up. -/
def save (s : Srv) (p : Nat) (q : Req) (r : Reply) (i : Ix) : Srv :=
  let s' := { s with replies := Function.update s.replies s.next (some r), next := s.next + 1 }
  ((s'.setEnt i { s.ent i with rc_un := .repmb s.next, repmbuf := true }).release i).setPc p (.finished q)

end Srv

/-! ## Steps -/

/-- What a process does next, or what else is done with an mbuf that is free. `result` is what the procedure gave. -/
inductive Event
  | receive (p m : Nat) (addr : Sockaddr) (xid : UInt32) (proc : Proc)
  | getcache (p : Nat) (time : Int)
  | reuse (m : Nat) (addr : Sockaddr)
  | answer (p : Nat) (time : Int)
  | execute (p : Nat) (result : Option (Int × List UInt8))
  | updatecache (p : Nat) (time : Int)
  | finish (p : Nat)

/-- A step; nothing is done where the process is not there. -/
def Srv.step (s : Srv) : Event → Except Stop (Srv × List Happening)
  | .receive p m addr xid proc => .ok ({ s with dat := Function.update s.dat m addr }.setPc p (.search ⟨m, xid, proc⟩), [])
  | .reuse m addr => .ok ({ s with dat := Function.update s.dat m addr }, [])
  | .getcache p time =>
    match s.procs p with
    | .search q => (s.getcache p q time).map fun r => (r.1, r.2 ++ [.looked (s.key q)])
    | .missAwake q i => s.miss p q i
    | _ => .ok (s, [])
  | .answer p time =>
    match s.procs p with
    | .replying q i => s.answer p q i time
    | _ => .ok (s, [])
  | .execute p result =>
    match s.procs p with
    | .running q =>
      let o : Outcome := result.map fun x => (x.1, nfsm_reply q x.1 x.2)
      .ok (s.setPc p (.update q o), [.done (s.key q) (o.map (·.2))])
    | _ => .ok (s, [])
  | .updatecache p time =>
    match s.procs p with
    | .update q o => .ok (s.updatecache p q o time, [])
    | .saving q _ r i => .ok (s.save p q r i, [])
    | _ => .ok (s, [])
  | .finish p =>
    match s.procs p with
    | .finished _ => .ok (s.setPc p .idle, [])
    | _ => .ok (s, [])

/-- The mbuf of the request a process works on. -/
def Pc.nam : Pc → Option Nat
  | .idle => none
  | .search q | .hitWait q _ | .missWait q _ | .missAwake q _ | .replying q _ | .running q | .update q _ | .updWait q _ _
  | .saving q _ _ _ | .finished q => some q.nam

/-- An nfsd receives a request when it has none, and mbufs that are in use are not given out. -/
def Srv.Allowed (s : Srv) : Event → Prop
  | .receive p m _ _ _ => s.procs p = .idle ∧ ∀ p', (s.procs p').nam ≠ some m
  | .reuse m _ => ∀ p, (s.procs p).nam ≠ some m
  | _ => True

end BsdKernel.Srvcache
