import BsdKernel.Ufs.LockfChains
import BsdKernel.Lib.Trace
/-!
# Waiting for a byte-range lock

`lf_setlock` with its blocking loop, over all inodes. A call runs to its return
or to its `tsleep` in one step, and goes on in a later one. The state has the lock
list of each inode and the requests that are in `lf_setlock`, asleep or woken up;
`next` is the `lf_next` of such a request, the lock it waits for.

A request that sleeps is on the chain of that lock, and the requests on a chain are
those that sleep (`Chained`), unless a sleep fails: `lf_setlock` then frees the
request where it is. And it breaks when a lock swallows another one with its chain
(`Swallows`), for the requests go on to name the lock that is freed. Without these,
every run keeps it: `lockf_waits`.

A pointer to no lock that is followed, a `panic`, and a wrapped range that has a lock
freed on the list are `none`.
-/

namespace BsdKernel.Advlock

/-- A lock in `lf_setlock`. -/
structure Request where
  lock : Lockf
  inode : Nat
  proc : Nat
  next : Option Nat
  asleep : Bool
  deriving DecidableEq, Repr

structure Sys where
  /-- `i_lockf`. -/
  locks : Nat → List Lockf
  reqs : List Request

def maxlockdepth : Nat := 50

/-- The request in whose `tsleep` a process is. -/
def Sys.waitsIn (s : Sys) (proc : Nat) : Option Request := s.reqs.find? fun r => r.proc = proc ∧ r.asleep

/-- The lock that `lf_next` of the request names. -/
def Sys.waitsFor (s : Sys) (r : Request) : Option Lockf :=
  r.next.bind fun a => (s.locks r.inode).find? fun lf => lf.addr = a

/-- The walk over the processes that wait for each other, `none` if it follows a
pointer to no lock. -/
def deadlock (s : Sys) (lock : Lockf) : Nat → Nat → Option Bool
  | 0, _ => some false
  | n + 1, wproc =>
    match s.waitsIn wproc with
    | none => some false
    | some r =>
      match s.waitsFor r with
      | none => none
      | some waitblock =>
        if waitblock.posix = false then some false
        else if waitblock.id = lock.id then some true
        else deadlock s lock n waitblock.id

/-- `lf_wakelock` on the side of the requests. -/
def Request.wake (woken : List Nat) (r : Request) : Request :=
  if r.lock.addr ∈ woken then { r with next := none, asleep := false } else r

/-- The inode has another list, and the requests `woken` are woken up. -/
def Sys.put (s : Sys) (inode : Nat) (l : List Lockf) (woken : List Nat) : Sys :=
  ⟨Function.update s.locks inode l, s.reqs.map (·.wake woken)⟩

/-- `lf_addblock` of one request. -/
def addblock (l : List Lockf) (block : Lockf) (w : Nat) : List Lockf :=
  l.map fun lf => if lf.addr = block.addr then { lf with block := lf.block ++ [w] } else lf

/-- The request is put on the chain of `block`, and sleeps. -/
def Sys.sleepOn (s : Sys) (r : Request) (block : Lockf) : Sys :=
  ⟨Function.update s.locks r.inode (addblock (s.locks r.inode) block r.lock.addr),
    s.reqs ++ [{ r with next := some block.addr, asleep := true }]⟩

/-- A turn of the loop of `lf_setlock`, to the next sleep or to the end. -/
def attempt (s : Sys) (r : Request) (fresh : Nat) : Option Sys :=
  match getblock r.lock (s.locks r.inode) with
  | none => (setlock r.lock fresh (s.locks r.inode)).map fun (l, woken) => s.put r.inode l woken
  | some block =>
    if r.lock.wait = false then some s
    else
      match if r.lock.posix ∧ block.posix then deadlock s r.lock maxlockdepth block.id else some false with
      | none => none
      | some true => some s
      | some false =>
        if r.lock.flock ∧ r.lock.type = .WRLCK then
          (clearlock { r.lock with type := .UNLCK } fresh (s.locks r.inode)).map fun (l, woken) =>
            (s.put r.inode l woken).sleepOn r block
        else some (s.sleepOn r block)

inductive Op
  | set (proc inode : Nat) (lock : Lockf) (fresh : Nat)
  /-- `tsleep` of a request that was woken up has returned. -/
  | resume (r : Request) (fresh : Nat)
  /-- `tsleep` of a request has returned an error. -/
  | fail (r : Request)
  | clear (inode : Nat) (unlock : Lockf) (fresh : Nat)
  deriving DecidableEq, Repr

/-- The request is no longer in `lf_setlock`. -/
def Sys.drop (s : Sys) (r : Request) : Sys := ⟨s.locks, s.reqs.erase r⟩

def step : Option Sys → Op → Option Sys
  | none, _ => none
  | some s, .set proc inode lock fresh => attempt s ⟨lock, inode, proc, none, false⟩ fresh
  | some s, .resume r fresh => attempt (s.drop r) r fresh
  | some s, .fail r => some (s.drop r)
  | some s, .clear inode unlock fresh =>
    (clearlock unlock fresh (s.locks inode)).map fun (l, woken) => s.put inode l woken

/-- There is a lock at this address. -/
def Sys.Live (s : Sys) (a : Nat) : Prop := (∃ i, ∃ lf ∈ s.locks i, lf.addr = a) ∨ ∃ r ∈ s.reqs, r.lock.addr = a

/-- The calls are with ranges and with memory that is free, a process in `lf_setlock`
makes no other call, and a sleep ends in order after a `wakeup`. -/
def Legal : Option Sys → Op → Prop
  | none, _ => True
  | some s, .set proc _ lock fresh =>
    (∀ r ∈ s.reqs, r.proc ≠ proc) ∧ lock.Valid ∧ lock.type ≠ .UNLCK ∧ lock.block = [] ∧ lock.addr ≠ fresh ∧
      ¬s.Live lock.addr ∧ ¬s.Live fresh
  | some s, .resume r fresh => r ∈ s.reqs ∧ r.asleep = false ∧ ¬s.Live fresh
  | some s, .fail r => r ∈ s.reqs
  | some s, .clear _ unlock fresh => unlock.Valid ∧ unlock.type = .UNLCK ∧ ¬s.Live fresh

/-- A request on a chain is a live request that sleeps and names the lock that has
the chain, and is on no other chain; a request that sleeps is on the chain of the lock
that it names. -/
structure Chained (s : Sys) : Prop where
  onChain : ∀ i, ∀ lf ∈ s.locks i, ∀ w ∈ lf.block,
    ∃ r ∈ s.reqs, r.lock.addr = w ∧ r.asleep = true ∧ r.next = some lf.addr
  once : ∀ i, ∀ lf ∈ s.locks i, lf.block.Nodup ∧
    ∀ j, ∀ lf' ∈ s.locks j, (∃ w ∈ lf.block, w ∈ lf'.block) → i = j ∧ lf = lf'
  sleeping : ∀ r ∈ s.reqs, r.asleep = true → ∃ lf, s.waitsFor r = some lf ∧ r.lock.addr ∈ lf.block

/-- The turn of a request swallows no chain, and wraps no range. -/
def Keeps (s : Sys) (r : Request) : Prop :=
  match getblock r.lock (s.locks r.inode) with
  | none => FitsSet r.lock (s.locks r.inode) ∧ ∀ lf ∈ s.locks r.inode, ¬Swallows r.lock lf
  | some _ => r.lock.wait = true → r.lock.flock = true → r.lock.type = .WRLCK → FitsClear r.lock (s.locks r.inode)

/-- No sleep fails of a request that was not woken up, no chain is swallowed, and no
range wraps. -/
def Careful : Option Sys → Op → Prop
  | none, _ => True
  | some s, .set proc inode lock _ => Keeps s ⟨lock, inode, proc, none, false⟩
  | some s, .resume r _ => Keeps s r
  | some _, .fail r => r.asleep = false
  | some s, .clear inode unlock _ => FitsClear unlock (s.locks inode)

end BsdKernel.Advlock
