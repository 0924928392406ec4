import BsdKernel.Lib.Loop
import BsdKernel.Lib.Trace
import Mathlib.Data.Finset.Card
import Mathlib.Logic.Function.Basic
/-!
# Process ids

The search for a process id in `fork1` (`kern/kern_fork.c`), and what `exit1`, `wait1`,
`setpgid` and `setsid` do to the ids in use. `fork1` keeps in `nextpid` and `pidchecked`
an interval of ids that no process had at its last scan of the process lists; later calls
take ids out of it without a scan.

`pid_runs`: in every run, whenever fewer than `PID_MAX - 100` ids are in use, the search
ends with an id that no process has as its own or as its group's; and there is never an id
in use between `nextpid` and `pidchecked`.
-/

namespace BsdKernel.Pid

open BsdKernel.Lib

def PID_MAX : Int := 30000

/-- `struct proc`, as far as ids go; `pgid` is `p_pgrp->pg_id`, and `leader` says whether
the process is the `s_leader` of its session. -/
structure Proc (P : Type) where
  pid : Int
  pgid : Int
  leader : Bool
  exec : Bool
  pptr : P

/-- `struct pgrp` on its hash chain; a group's members are the processes with its id. -/
structure Pgrp where
  id : Int
  session : Nat
  deriving DecidableEq, Repr

/-- The process table and the two statics of `fork1`. -/
structure Table (P : Type) where
  proc : P → Proc P
  allproc : List P
  zombproc : List P
  pgrphash : List Pgrp
  initproc : P
  nextpid : Int
  pidchecked : Int

variable {P : Type} [DecidableEq P]

/-! ## The search of `fork1` -/

/-- Where the search is: at `retry`, or at the processes that are left of a list. -/
inductive At (P : Type)
  | retry
  | again (p2 : List P) (doingzomb : Bool)

structure Search (P : Type) where
  nextpid : Int
  pidchecked : Int
  pos : At P

namespace Table

variable (s : Table P)

/-- The processes on the two lists. -/
def procs : List P := s.allproc ++ s.zombproc

/-- One round of the search, up to the next jump or test of a loop. -/
def searchStep (t : Search P) : Search P ⊕ (Int × Int) :=
  match t.pos with
  | .retry =>
    let t := if t.nextpid ≥ PID_MAX then { t with nextpid := 100, pidchecked := 0 } else t
    if t.nextpid ≥ t.pidchecked then .inl { t with pidchecked := PID_MAX, pos := .again s.allproc false }
    else .inr (t.nextpid, t.pidchecked)
  | .again [] false => .inl { t with pos := .again s.zombproc true }
  | .again [] true => .inr (t.nextpid, t.pidchecked)
  | .again (p2 :: l) z =>
    let p := s.proc p2
    if p.pid = t.nextpid ∨ p.pgid = t.nextpid then
      let t := { t with nextpid := t.nextpid + 1 }
      if t.nextpid ≥ t.pidchecked then .inl { t with pos := .retry } else .inl t
    else
      let c := if p.pid > t.nextpid ∧ t.pidchecked > p.pid then p.pid else t.pidchecked
      let c := if p.pgid > t.nextpid ∧ c > p.pgid then p.pgid else c
      .inl { t with pidchecked := c, pos := .again l z }

/-- More rounds than the search needs (`search_ends`). -/
def rounds : Nat := (2 * PID_MAX.toNat + 2) * (2 * (s.procs.length + 3)) + 1

/-- The search, from `nextpid++`: the new `nextpid` and `pidchecked`. -/
def search : Option (Int × Int) := loop s.searchStep s.rounds ⟨s.nextpid + 1, s.pidchecked, .retry⟩

/-! ## The calls -/

/-- `fork1`, from the search on, for the memory `new` of the child; `none` if it does not end. -/
def fork1 (p1 new : P) : Option (Table P) :=
  s.search.map fun (n, c) =>
    { s with
      nextpid := n
      pidchecked := c
      allproc := new :: s.allproc
      proc := Function.update s.proc new
        { pid := n, pgid := (s.proc p1).pgid, leader := false, exec := false, pptr := p1 } }

/-- `pfind`: the processes on the pid hash are those of `allproc`. -/
def pfind (pid : Int) : Option P := s.allproc.find? fun p => (s.proc p).pid = pid

def pgfind (pgid : Int) : Option Pgrp := s.pgrphash.find? fun g => g.id = pgid

/-- `p_session` -/
def session (p : P) : Option Nat := (s.pgfind (s.proc p).pgid).map (·.session)

def pgdelete (pgid : Int) : Table P := { s with pgrphash := s.pgrphash.filter fun g => g.id ≠ pgid }

/-- A group whose last member has left is deleted. -/
def pgdeleteEmpty (pgid : Int) : Table P :=
  if s.procs.any fun p => (s.proc p).pgid = pgid then s else s.pgdelete pgid

/-- The end of `enterpgrp`: from the old group's members to the new one's. -/
def moveTo (p : P) (pgid : Int) : Table P :=
  { s with proc := Function.update s.proc p { s.proc p with pgid := pgid } }.pgdeleteEmpty (s.proc p).pgid

/-- `enterpgrp`, where `sess` is the memory of a new session. -/
def enterpgrp (p : P) (pgid : Int) (mksess : Bool) (sess : Nat) : Except String (Table P) :=
  if (s.pgfind pgid).isSome ∧ mksess then .error "enterpgrp: setsid into non-empty pgrp"
  else if (s.proc p).leader then .error "enterpgrp: session leader attempted setpgrp"
  else
    match s.pgfind pgid with
    | none =>
      if (s.proc p).pid ≠ pgid then .error "enterpgrp: new pgrp and pid != pgid"
      else if s.pfind (s.proc p).pid ≠ some p then .ok s
      else if mksess then
        .ok ({ s with
          pgrphash := ⟨pgid, sess⟩ :: s.pgrphash
          proc := Function.update s.proc p { s.proc p with leader := true } }.moveTo p pgid)
      else
        .ok ({ s with pgrphash := ⟨pgid, (s.session p).getD 0⟩ :: s.pgrphash }.moveTo p pgid)
    | some g => if g.id = (s.proc p).pgid then .ok s else .ok (s.moveTo p pgid)

/-- `setsid` -/
def setsid (p : P) (sess : Nat) : Except String (Table P) :=
  if (s.proc p).pgid = (s.proc p).pid ∨ (s.pgfind (s.proc p).pid).isSome then .ok s
  else s.enterpgrp p (s.proc p).pid true sess

/-- The second half of `setpgid`, for the process it found. -/
def setpgidOf (curp targp : P) (pgid : Int) : Except String (Table P) :=
  if (s.proc targp).leader then .ok s
  else if pgid = 0 then s.enterpgrp targp (s.proc targp).pid false 0
  else if pgid ≠ (s.proc targp).pid then
    match s.pgfind pgid with
    | none => .ok s
    | some g => if some g.session ≠ s.session curp then .ok s else s.enterpgrp targp pgid false 0
  else s.enterpgrp targp pgid false 0

/-- `setpgid`, where `inferior` is the answer of `inferior(targp)`. -/
def setpgid (curp : P) (pid pgid : Int) (inferior : Bool) : Except String (Table P) :=
  if pid ≠ 0 ∧ pid ≠ (s.proc curp).pid then
    match s.pfind pid with
    | none => .ok s
    | some targp =>
      if !inferior then .ok s
      else if s.session targp ≠ s.session curp then .ok s
      else if (s.proc targp).exec then .ok s
      else s.setpgidOf curp targp pgid
  else s.setpgidOf curp curp pgid

/-- `exit1`: to `zombproc`; the children go to `initproc`. -/
def exit1 (p : P) : Table P :=
  { s with
    allproc := s.allproc.erase p
    zombproc := p :: s.zombproc
    proc := fun q =>
      let r := if (s.proc q).pptr = p then { s.proc q with pptr := s.initproc } else s.proc q
      if q = p then { r with leader := false } else r }

/-- `leavepgrp` and the unlinking of `wait1`. -/
def wait1 (p : P) : Table P := { s with zombproc := s.zombproc.erase p }.pgdeleteEmpty (s.proc p).pgid

/-- `proc_reparent` -/
def procReparent (p t : P) : Table P := { s with proc := Function.update s.proc p { s.proc p with pptr := t } }

end Table

/-! ## Runs -/

/-- A call, by the process and with the arguments that matter here; `exec` is what `execve`
does. A `fork1` that the limits refuse and a `wait1` that reaps nothing change no ids. -/
inductive Op (P : Type)
  | fork1 (p1 new : P)
  | exit1 (p : P)
  | wait1 (q p : P)
  | setpgid (curp : P) (pid pgid : Int) (inferior : Bool)
  | setsid (p : P) (sess : Nat)
  | procReparent (p t : P)
  | exec (p : P)

/-- How a run stops: a panic, or a search that does not end. -/
inductive Stop
  | panic (msg : String)
  | hang
  deriving DecidableEq, Repr

def liftPanic {α : Type} : Except String α → Except Stop α
  | .ok a => .ok a
  | .error msg => .error (.panic msg)

namespace Table

def step (s : Table P) : Op P → Except Stop (Table P)
  | .fork1 p1 new => (s.fork1 p1 new).elim (.error .hang) .ok
  | .exit1 p => .ok (s.exit1 p)
  | .wait1 _ p => .ok (s.wait1 p)
  | .setpgid curp pid pgid inferior => liftPanic (s.setpgid curp pid pgid inferior)
  | .setsid p sess => liftPanic (s.setsid p sess)
  | .procReparent p t => .ok (s.procReparent p t)
  | .exec p => .ok { s with proc := Function.update s.proc p { s.proc p with exec := true } }

/-- The ids in use: of processes and of their groups. -/
def ids (s : Table P) : List Int := s.procs.map (fun p => (s.proc p).pid) ++ s.procs.map (fun p => (s.proc p).pgid)

/-- Fewer than `PID_MAX - 100` distinct ids are in use. -/
def Room (s : Table P) : Prop := (s.ids.toFinset.card : Int) < PID_MAX - 100

/-- Who can make a call: a running process, and a parent reaps its own zombie. The child of
`fork1` is new memory, and forks are made while the ids suffice. `exit1` of `init` panics. -/
def Allowed (s : Table P) : Op P → Prop
  | .fork1 p1 new => p1 ∈ s.allproc ∧ new ∉ s.procs ∧ s.Room
  | .exit1 p => p ∈ s.allproc ∧ (s.proc p).pid ≠ 1
  | .wait1 q p => q ∈ s.allproc ∧ p ∈ s.zombproc ∧ (s.proc p).pptr = q
  | .setpgid curp _ _ _ => curp ∈ s.allproc
  | .setsid p _ => p ∈ s.allproc
  | .procReparent _ _ => True
  | .exec p => p ∈ s.allproc

instance (s : Table P) : Decidable s.Room := inferInstanceAs (Decidable ((_ : Int) < _))

instance (s : Table P) : ∀ op, Decidable (s.Allowed op)
  | .fork1 p1 new => inferInstanceAs (Decidable (p1 ∈ s.allproc ∧ new ∉ s.procs ∧ s.Room))
  | .exit1 p => inferInstanceAs (Decidable (p ∈ s.allproc ∧ (s.proc p).pid ≠ 1))
  | .wait1 q p => inferInstanceAs (Decidable (q ∈ s.allproc ∧ p ∈ s.zombproc ∧ (s.proc p).pptr = q))
  | .setpgid p _ _ _ | .setsid p _ | .exec p => inferInstanceAs (Decidable (p ∈ s.allproc))
  | .procReparent _ _ => inferInstanceAs (Decidable True)

/-- Process 0, alone, in group 0 and session 0; `init` is to be the memory of process 1. -/
def boot (p0 init : P) : Table P where
  proc := fun _ => { pid := 0, pgid := 0, leader := true, exec := false, pptr := p0 }
  allproc := [p0]
  zombproc := []
  pgrphash := [⟨0, 0⟩]
  initproc := init
  nextpid := 0
  pidchecked := 0

end Table

/-- The table of a run, until it stops. -/
def step (t : Except Stop (Table P)) (op : Op P) : Except Stop (Table P) := t.bind (·.step op)

/-- The calls of a run are such as can be made. -/
def Allowed (t : Except Stop (Table P)) (op : Op P) : Prop := ∀ s, t = .ok s → s.Allowed op

instance (op : Op P) : ∀ t, Decidable (Allowed t op)
  | .error _ => isTrue nofun
  | .ok s => decidable_of_iff (s.Allowed op) ⟨fun h _ he => Except.ok.inj he ▸ h, fun h => h s rfl⟩

/-- The cached interval: no process has an id, or a group's id, between the two. -/
def CacheSound (s : Table P) : Prop :=
  ∀ p ∈ s.procs, ¬(s.nextpid < (s.proc p).pid ∧ (s.proc p).pid < s.pidchecked) ∧
    ¬(s.nextpid < (s.proc p).pgid ∧ (s.proc p).pgid < s.pidchecked)

/-- The search ends, with an id below `PID_MAX` that no process has as its own or its group's. -/
def ForkFinds (s : Table P) : Prop :=
  ∃ n c, s.search = some (n, c) ∧ n < PID_MAX ∧ ∀ p ∈ s.procs, (s.proc p).pid ≠ n ∧ (s.proc p).pgid ≠ n

end BsdKernel.Pid
