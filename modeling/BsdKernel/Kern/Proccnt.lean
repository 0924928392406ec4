import BsdKernel.Lib.Tally
import BsdKernel.Lib.Trace
import Mathlib.Logic.Function.Basic
/-!
# Process counts

`chgproccnt` of `kern/kern_proc.c` and its callers: `fork1`, `setuid` and the end of `wait1`.
Processes run until they sleep; the steps are cut at each `MALLOC` with `M_WAITOK`, where
any other process may run before the memory comes.

`limits_runs`: the limits and the counts hold throughout a run exactly if no counter is
inserted to stay for a uid that has got one while its memory was being allocated, and no
child is linked when the table has filled up meanwhile.
-/

namespace BsdKernel.Proccnt

open BsdKernel.Lib

/-- `struct uidinfo` -/
structure Uidinfo where
  uid : Nat
  proccnt : Int
  deriving DecidableEq, Repr

/-- Where a process sleeps in `MALLOC`: `chgproccnt` in `fork1` or in `setuid`, the `struct proc`
of a child, the credentials of the child `p2`, or `crcopy` in `setuid`. `lim` is the
`RLIMIT_NPROC` that `fork1` compares with. -/
inductive Call (P : Type)
  | none
  | forkUid (uid : Nat) (lim : Int)
  | forkProc (uid : Nat) (lim : Int)
  | forkCred (uid : Nat) (p2 : P)
  | setuidUid (uid : Nat)
  | setuidCred (uid : Nat)
  deriving DecidableEq

/-- The kernel. `ruid` is `p_cred->p_ruid`, if the process has got its credentials; the chains of
`uihashtbl` are one list here, as a search on a chain looks for one uid. -/
structure Kernel (P : Type) where
  nprocs : Int
  allproc : List P
  zombproc : List P
  ruid : P → Option Nat
  call : P → Call P
  uihash : List Uidinfo

/-- Process 0, after `main` has counted it. -/
def Kernel.boot {P : Type} (p0 : P) : Kernel P where
  nprocs := 1
  allproc := [p0]
  zombproc := []
  ruid := fun _ => some 0
  call := fun _ => .none
  uihash := [⟨0, 1⟩]

variable {P : Type} [DecidableEq P]

/-! ## `chgproccnt` -/

/-- The first counter of the chain with this uid. -/
def find (uid : Nat) (l : List Uidinfo) : Option Uidinfo := l.find? fun uip => uip.uid = uid

/-- `uip->ui_proccnt` of the counter found is set. -/
def setCnt (uid : Nat) (n : Int) : List Uidinfo → List Uidinfo
  | [] => []
  | uip :: l => if uip.uid = uid then { uip with proccnt := n } :: l else uip :: setCnt uid n l

/-- `LIST_REMOVE` of the counter found. -/
def unlink (uid : Nat) (l : List Uidinfo) : List Uidinfo := l.eraseP fun uip => uip.uid = uid

/-- What `chgproccnt` comes to: it returns a count, or it has to allocate a counter. -/
inductive Chg
  | ret (uihash : List Uidinfo) (cnt : Int)
  | malloc
  deriving DecidableEq

/-- `chgproccnt`, up to its `MALLOC`. -/
def chgproccnt (l : List Uidinfo) (uid : Nat) (diff : Int) : Except String Chg :=
  match find uid l with
  | some uip =>
    let n := uip.proccnt + diff
    if n > 0 then .ok (.ret (setCnt uid n l) n)
    else if n < 0 then .error "chgproccnt: procs < 0"
    else .ok (.ret (unlink uid l) 0)
  | none =>
    if diff = 0 then .ok (.ret l 0)
    else if diff < 0 then .error "chgproccnt: lost user"
    else .ok .malloc

/-- `(void)chgproccnt(uid, -1)`, which does not allocate. -/
def decproccnt (l : List Uidinfo) (uid : Nat) : Except String (List Uidinfo) := do
  match ← chgproccnt l uid (-1) with
  | .ret l _ => return l
  | .malloc => return l

/-! ## The steps -/

namespace Kernel

variable (s : Kernel P)

def setCall (p : P) (c : Call P) : Kernel P := { s with call := Function.update s.call p c }

def setTable (l : List Uidinfo) : Kernel P := { s with uihash := l }

def setRuid (p : P) (uid : Option Nat) : Kernel P := { s with ruid := Function.update s.ruid p uid }

/-- The test of the user's limit in `fork1`, with the count that `chgproccnt` returned. -/
def forkLimit (p1 : P) (uid : Nat) (lim count : Int) : Except String (Kernel P) :=
  if uid ≠ 0 ∧ count > lim then do
    let l ← decproccnt s.uihash uid
    return (s.setTable l).setCall p1 .none
  else return s.setCall p1 (.forkProc uid lim)

/-- `fork1` from its start. -/
def fork1 (maxproc : Int) (p1 : P) (uid : Nat) (lim : Int) : Except String (Kernel P) :=
  if (s.nprocs ≥ maxproc - 1 ∧ uid ≠ 0) ∨ s.nprocs ≥ maxproc then return s
  else do
    match ← chgproccnt s.uihash uid 1 with
    | .ret l count => (s.setTable l).forkLimit p1 uid lim count
    | .malloc => return s.setCall p1 (.forkUid uid lim)

/-- `setuid` from its start; `suser` is the answer of `suser()`. -/
def setuid (p : P) (ruid uid : Nat) (suser : Bool) : Except String (Kernel P) :=
  if uid ≠ ruid ∧ !suser then return s
  else do
    let l ← decproccnt s.uihash ruid
    match ← chgproccnt l uid 1 with
    | .ret l _ => return (s.setTable l).setCall p (.setuidCred uid)
    | .malloc => return (s.setTable l).setCall p (.setuidUid uid)

/-- A process comes back from `MALLOC`, in `fork1` for a child with the memory `new`. -/
def malloc (p new : P) : Except String (Kernel P) :=
  match s.call p with
  | .none => return s
  | .forkUid uid lim => (s.setTable (⟨uid, 1⟩ :: s.uihash)).forkLimit p uid lim 1
  | .forkProc uid _ =>
    return { s with
      nprocs := s.nprocs + 1
      allproc := new :: s.allproc
      ruid := Function.update s.ruid new none
      call := Function.update (Function.update s.call new .none) p (.forkCred uid new) }
  | .forkCred _ p2 => return (s.setRuid p2 (s.ruid p)).setCall p .none
  | .setuidUid uid => return (s.setTable (⟨uid, 1⟩ :: s.uihash)).setCall p (.setuidCred uid)
  | .setuidCred uid => return (s.setRuid p (some uid)).setCall p .none

/-- `exit1`: to `zombproc`. -/
def exit1 (p : P) : Kernel P := { s with allproc := s.allproc.erase p, zombproc := p :: s.zombproc }

/-- The end of `wait1`, for the zombie `p`. -/
def wait1 (p : P) (ruid : Nat) : Except String (Kernel P) := do
  let l ← decproccnt s.uihash ruid
  return { s with uihash := l, zombproc := s.zombproc.erase p, nprocs := s.nprocs - 1 }

end Kernel

inductive Op (P : Type)
  | fork1 (p1 : P) (lim : Int)
  | setuid (p : P) (uid : Nat) (suser : Bool)
  | malloc (p new : P)
  | exit1 (p : P)
  | wait1 (p : P)

namespace Kernel

/-- A step of the process `p`, which has the real uid `ruid p`. -/
def step (maxproc : Int) (s : Kernel P) : Op P → Except String (Kernel P)
  | .fork1 p1 lim => (s.ruid p1).elim (.ok s) fun uid => s.fork1 maxproc p1 uid lim
  | .setuid p uid suser => (s.ruid p).elim (.ok s) fun ruid => s.setuid p ruid uid suser
  | .malloc p new => s.malloc p new
  | .exit1 p => .ok (s.exit1 p)
  | .wait1 p => (s.ruid p).elim (.ok s) fun ruid => s.wait1 p ruid

/-- The processes on the two lists. -/
def procs (s : Kernel P) : List P := s.allproc ++ s.zombproc

/-- Who can take a step: a live process with credentials that is not in one of these calls starts
one, a process in one goes on, with memory that is not a process; a zombie is reaped. -/
def Allowed (s : Kernel P) : Op P → Prop
  | .fork1 p _ | .setuid p _ _ | .exit1 p => p ∈ s.allproc ∧ s.call p = .none ∧ (s.ruid p).isSome
  | .malloc p new => s.call p ≠ .none ∧ new ∉ s.procs
  | .wait1 p => p ∈ s.zombproc

instance (s : Kernel P) : ∀ op, Decidable (s.Allowed op)
  | .fork1 p _ | .setuid p _ _ | .exit1 p =>
    inferInstanceAs (Decidable (p ∈ s.allproc ∧ s.call p = .none ∧ (s.ruid p).isSome))
  | .malloc p new => inferInstanceAs (Decidable (s.call p ≠ .none ∧ new ∉ s.procs))
  | .wait1 p => inferInstanceAs (Decidable (p ∈ s.zombproc))

/-! ## The claim on the counts -/

/-- The uid a process itself counts for: in `setuid` that is the new one, once it is counted. -/
def own (s : Kernel P) (p : P) : Option Nat :=
  match s.call p with
  | .setuidUid _ => none
  | .setuidCred uid => some uid
  | _ => s.ruid p

/-- The uid that the child of a process in `fork1` counts for, before it has credentials of its own. -/
def child (s : Kernel P) (p : P) : Option Nat :=
  match s.call p with
  | .forkProc uid _ => some uid
  | .forkCred uid _ => some uid
  | _ => none

/-- How much a process counts for `uid`. -/
def weight (s : Kernel P) (uid : Nat) (p : P) : Nat :=
  (if s.own p = some uid then 1 else 0) + (if s.child p = some uid then 1 else 0)

/-- The processes with the real uid, and the forks and `setuid` calls in progress for it. -/
def users (s : Kernel P) (uid : Nat) : Nat := tally (s.weight uid) s.procs

/-- The limits and the counts. -/
structure Limits (maxproc : Int) (s : Kernel P) : Prop where
  nprocs : s.nprocs = (s.allproc.length + s.zombproc.length : Nat)
  bound : s.nprocs ≤ maxproc
  unique : (s.uihash.map Uidinfo.uid).Nodup
  count : ∀ uip ∈ s.uihash, uip.proccnt = s.users uip.uid
  listed : ∀ uid, 0 < s.users uid → ∃ uip ∈ s.uihash, uip.uid = uid

/-- The forks that pass the test of their user's limit do not bring the user above it. -/
def Within (s s' : Kernel P) : Prop :=
  ∀ p uid lim, s'.call p = .forkProc uid lim → s.call p ≠ .forkProc uid lim → uid ≠ 0 → (s'.users uid : Int) ≤ lim

/-- Where a process may come back from `MALLOC`: a counter comes into the table when the uid has
none (or goes at once, the limit being 0), and a child when the table has room for it. -/
def SafeAt (maxproc : Int) (s : Kernel P) : Call P → Prop
  | .forkUid uid lim => find uid s.uihash = none ∨ uid ≠ 0 ∧ lim < 1
  | .setuidUid uid => find uid s.uihash = none
  | .forkProc _ _ => s.nprocs < maxproc
  | .none | .forkCred _ _ | .setuidCred _ => True

/-- The steps that keep the limits. -/
def Safe (maxproc : Int) (s : Kernel P) : Op P → Prop
  | .malloc p _ => s.SafeAt maxproc (s.call p)
  | .fork1 _ _ | .setuid _ _ _ | .exit1 _ | .wait1 _ => True

instance (maxproc : Int) (s : Kernel P) : ∀ c, Decidable (s.SafeAt maxproc c)
  | .forkUid uid lim => inferInstanceAs (Decidable (find uid s.uihash = none ∨ uid ≠ 0 ∧ lim < 1))
  | .setuidUid uid => inferInstanceAs (Decidable (find uid s.uihash = none))
  | .forkProc _ _ => inferInstanceAs (Decidable (s.nprocs < maxproc))
  | .none | .forkCred _ _ | .setuidCred _ => inferInstanceAs (Decidable True)

instance (maxproc : Int) (s : Kernel P) : ∀ op, Decidable (s.Safe maxproc op)
  | .malloc p _ => inferInstanceAs (Decidable (s.SafeAt maxproc (s.call p)))
  | .fork1 _ _ | .setuid _ _ _ | .exit1 _ | .wait1 _ => inferInstanceAs (Decidable True)

end Kernel

/-- A run, until it panics. -/
def step (maxproc : Int) (t : Except String (Kernel P)) (op : Op P) : Except String (Kernel P) :=
  t.bind (Kernel.step maxproc · op)

def Allowed (t : Except String (Kernel P)) (op : Op P) : Prop := ∀ s, t = .ok s → s.Allowed op

instance (op : Op P) : ∀ t, Decidable (Allowed t op)
  | .error _ => isTrue nofun
  | .ok s => decidable_of_iff (s.Allowed op) ⟨fun h _ he => Except.ok.inj he ▸ h, fun h => h s rfl⟩

def Safe (maxproc : Int) (t : Except String (Kernel P)) (op : Op P) : Prop := ∀ s, t = .ok s → s.Safe maxproc op

instance (maxproc : Int) (op : Op P) : ∀ t, Decidable (Safe maxproc t op)
  | .error _ => isTrue nofun
  | .ok s => decidable_of_iff (s.Safe maxproc op) ⟨fun h _ he => Except.ok.inj he ▸ h, fun h => h s rfl⟩

def Within (maxproc : Int) (t : Except String (Kernel P)) (op : Op P) : Prop :=
  ∀ s s', t = .ok s → s.step maxproc op = .ok s' → s.Within s'

end BsdKernel.Proccnt
