import Mathlib.Tactic
/-!
# File descriptors

`fdalloc`, `falloc`, `dup`, `dup2`, `fcntl(F_DUPFD)`, `close`, `fdcopy`, `fdfree`
and `closef` of `kern/kern_descrip.c`. A descriptor table is the list of its
`fd_nfiles` slots, each a pointer of `fd_ofiles` with its byte of
`fd_ofileflags`. Pointers to `struct file` are numbers that are not used again,
and the file table holds the `f_count` of those that are allocated. Processes
are numbered in the order of their `fork`s.

`f_count` is a `short`, `fd_lastfile` and `fd_freefile` are `u_short`s. The list
of open files and what closing does to locks and vnodes is left out. A `panic`,
and a use of a file that was freed, is `none`.
-/

namespace BsdKernel.Descrip

def NDFILE : Nat := 20

def NDEXTENT : Nat := 50

def UF_EXCLOSE : BitVec 8 := 1

def UF_MAPPED : BitVec 8 := 2

inductive Errno
  | EBADF | EINVAL | EMFILE | ENFILE
  deriving DecidableEq, Repr

/-- An assignment to a `short`. -/
def short (x : Int) : Int := (x + 2 ^ 15) % 2 ^ 16 - 2 ^ 15

/-- An assignment to a `u_short`. -/
def ushort (x : Nat) : Nat := x % 2 ^ 16

abbrev FileId := Nat

structure Slot where
  file : Option FileId
  flags : BitVec 8
  deriving DecidableEq, Repr

/-- A slot that `bzero` leaves. -/
def Slot.zero : Slot := ⟨none, 0⟩

structure Filedesc where
  /-- `fd_ofiles` and `fd_ofileflags`; `fd_nfiles` is the length. -/
  slots : List Slot
  lastfile : Nat
  freefile : Nat
  refcnt : Nat
  deriving DecidableEq, Repr

/-- `RLIMIT_NOFILE` of the process and `maxfiles`, at the time of a call. -/
structure Limits where
  rlim : Nat
  maxfiles : Nat
  deriving DecidableEq, Repr

/-- `min((int)p->p_rlimit[RLIMIT_NOFILE].rlim_cur, maxfiles)`. -/
def Limits.lim (l : Limits) : Nat := min l.rlim l.maxfiles

structure State where
  /-- The `f_count` of each file, if it is allocated. -/
  files : List (Option Int)
  nfiles : Int
  /-- The `p_fd` of each process, if it has one. -/
  procs : List (Option Filedesc)
  deriving DecidableEq, Repr

/-- The file of a descriptor; there is none past the table. -/
def Filedesc.fileAt (fd : Filedesc) (i : Nat) : Option FileId := (fd.slots[i]?).bind (·.file)

/-! ## Allocating a descriptor -/

/-- The inner loop of `fdalloc`. -/
def search (fd : Filedesc) (i last : Nat) : Option Nat :=
  (List.range' i (last - i)).find? fun i => (fd.fileAt i).isNone

/-- The arrays twice as large, or of `NDEXTENT`. -/
def expand (fd : Filedesc) : Filedesc :=
  let nfiles := if fd.slots.length < NDEXTENT then NDEXTENT else 2 * fd.slots.length
  { fd with slots := fd.slots ++ List.replicate (nfiles - fd.slots.length) Slot.zero }

/-- The assignments of `fdalloc` when it finds descriptor `i`. -/
def take (fd : Filedesc) (want i : Nat) : Filedesc :=
  { fd with
    slots := fd.slots.modify i ({ · with flags := 0 })
    lastfile := if i > fd.lastfile then ushort i else fd.lastfile
    freefile := if want ≤ fd.freefile then ushort i else fd.freefile }

/-- The outer loop of `fdalloc`, for at most `fuel` rounds; the table is left
expanded when it fails. -/
def fdallocLoop (want lim : Nat) : Nat → Filedesc → Filedesc × Except Errno Nat
  | 0, fd => (fd, .error .EMFILE)
  | fuel + 1, fd =>
    let last := min fd.slots.length lim
    match search fd (max want fd.freefile) last with
    | some i => (take fd want i, .ok i)
    | none => if fd.slots.length ≥ lim then (fd, .error .EMFILE) else fdallocLoop want lim fuel (expand fd)

/-- `fdalloc`. Each round but the last makes the table larger, up to `lim`. -/
def fdalloc (fd : Filedesc) (want lim : Nat) : Filedesc × Except Errno Nat :=
  fdallocLoop want lim (lim + 1 - fd.slots.length + 1) fd

/-! ## References to files -/

/-- `fp->f_count`. -/
def count (files : List (Option Int)) (f : FileId) : Option Int := (files[f]?).join

/-- `fp->f_count++`. -/
def hold (files : List (Option Int)) (f : FileId) : Option (List (Option Int)) :=
  (count files f).map fun c => files.set f (some (short (c + 1)))

/-- `closef` with `ffree`: the files, and the number of files freed. -/
def closef (files : List (Option Int)) (f : FileId) : Option (List (Option Int) × Int) := do
  let c ← count files f
  let c := short (c - 1)
  if c > 0 then some (files.set f (some c), 0)
  else if c < 0 then none
  else some (files.set f none, 1)

def State.setFd (s : State) (p : Nat) (fd : Filedesc) : State := { s with procs := s.procs.set p (some fd) }

/-- The table of process `p`. -/
def State.fdOf (s : State) (p : Nat) : Option Filedesc := (s.procs[p]?).join

def falloc (s : State) (p : Nat) (fd : Filedesc) (l : Limits) : State × Except Errno Nat :=
  match fdalloc fd 0 l.lim with
  | (fd, .error e) => (s.setFd p fd, .error e)
  | (fd, .ok i) =>
    if s.nfiles ≥ l.maxfiles then (s.setFd p fd, .error .ENFILE)
    else
      ({ s with
          files := s.files ++ [some 1]
          nfiles := s.nfiles + 1
          procs := s.procs.set p (some { fd with slots := fd.slots.modify i ({ · with file := some s.files.length }) }) },
        .ok i)

/-- `finishdup`, where descriptor `old` has file `f`. -/
def finishdup (s : State) (p : Nat) (fd : Filedesc) (old new : Nat) : Option (State × Except Errno Nat) := do
  let slot ← fd.slots[old]?
  let f ← slot.file
  let files ← hold s.files f
  let fd :=
    { fd with
      slots := fd.slots.set new ⟨some f, slot.flags &&& ~~~UF_EXCLOSE⟩
      lastfile := if new > fd.lastfile then ushort new else fd.lastfile }
  return ({ s with files := files, procs := s.procs.set p (some fd) }, .ok new)

/-- `munmapfd`. -/
def munmapfd (fd : Filedesc) (i : Nat) : Filedesc :=
  { fd with slots := fd.slots.modify i fun slot => { slot with flags := slot.flags &&& ~~~UF_MAPPED } }

/-- `if (fdp->fd_ofileflags[i] & UF_MAPPED) munmapfd(p, i)`. -/
def unmap (fd : Filedesc) (i : Nat) : Filedesc :=
  if (fd.slots[i]?).any (fun slot => slot.flags &&& UF_MAPPED != 0) then munmapfd fd i else fd

def dup2 (s : State) (p : Nat) (fd : Filedesc) (old new : Nat) (l : Limits) : Option (State × Except Errno Nat) :=
  if fd.fileAt old = none ∨ new ≥ l.rlim ∨ new ≥ l.maxfiles then some (s, .error .EBADF)
  else if old = new then some (s, .ok new)
  else if new ≥ fd.slots.length then
    match fdalloc fd new l.lim with
    | (fd, .error e) => some (s.setFd p fd, .error e)
    | (fd, .ok i) => if new ≠ i then none else finishdup s p fd old new
  else
    match fd.fileAt new with
    | none => finishdup s p fd old new
    | some g => do
      let (files, freed) ← closef s.files g
      finishdup { s with files := files, nfiles := s.nfiles - freed } p (unmap fd new) old new

/-- `dup`. A descriptor above 63 is a `dup2` to the word `dst` behind the
argument. -/
def dup (s : State) (p : Nat) (fd : Filedesc) (old dst : Nat) (l : Limits) : Option (State × Except Errno Nat) :=
  if old ≥ 64 then dup2 s p fd (old % 64) dst l
  else if fd.fileAt old = none then some (s, .error .EBADF)
  else
    match fdalloc fd 0 l.lim with
    | (fd, .error e) => some (s.setFd p fd, .error e)
    | (fd, .ok new) => finishdup s p fd old new

/-- `fcntl(F_DUPFD)`. -/
def dupfd (s : State) (p : Nat) (fd : Filedesc) (old newmin : Nat) (l : Limits) : Option (State × Except Errno Nat) :=
  if fd.fileAt old = none then some (s, .error .EBADF)
  else if newmin ≥ l.rlim ∨ newmin ≥ l.maxfiles then some (s, .error .EINVAL)
  else
    match fdalloc fd newmin l.lim with
    | (fd, .error e) => some (s.setFd p fd, .error e)
    | (fd, .ok i) => finishdup s p fd old i

/-- The loop of `close` over `fd_lastfile`. -/
def lowerLast (fd : Filedesc) : Nat → Nat
  | 0 => 0
  | last + 1 => if fd.fileAt (last + 1) = none then lowerLast fd last else last + 1

/-- The table after `close` of `i`. -/
def clear (fd : Filedesc) (i : Nat) : Filedesc :=
  let fd := { fd with slots := fd.slots.set i Slot.zero }
  { fd with lastfile := lowerLast fd fd.lastfile, freefile := if i < fd.freefile then ushort i else fd.freefile }

def close (s : State) (p : Nat) (fd : Filedesc) (i : Nat) : Option (State × Except Errno Nat) :=
  match fd.fileAt i with
  | none => some (s, .error .EBADF)
  | some f => do
    let (files, freed) ← closef s.files f
    return ({ files := files, nfiles := s.nfiles - freed, procs := s.procs.set p (some (clear fd i)) }, .ok 0)

/-! ## Copying and freeing a table -/

/-- The loop of `fdcopy` that halves the table, for at most `fuel` rounds. -/
def shrink (lastfile : Nat) : Nat → Nat → Nat
  | 0, i => i
  | fuel + 1, i => if i > 2 * NDEXTENT ∧ i > lastfile * 2 then shrink lastfile fuel (i / 2) else i

/-- The size of the copy. -/
def copySize (fd : Filedesc) : Nat :=
  if fd.lastfile < NDFILE then NDFILE else shrink fd.lastfile fd.slots.length fd.slots.length

/-- The table of the copy. -/
def copyTable (fd : Filedesc) : Filedesc := { fd with slots := fd.slots.take (copySize fd), refcnt := 1 }

/-- The files of descriptors `0` to `fd_lastfile`. -/
def Filedesc.openFiles (fd : Filedesc) : List FileId := (fd.slots.take (fd.lastfile + 1)).filterMap (·.file)

/-- `fdcopy` in `fork`: the child is the next process. -/
def fdcopy (s : State) (fd : Filedesc) : Option (State × Except Errno Nat) := do
  let files ← (copyTable fd).openFiles.foldlM hold s.files
  return ({ s with files := files, procs := s.procs ++ [some (copyTable fd)] }, .ok s.procs.length)

/-- `closef` of each of some files. -/
def closeAll (files : List (Option Int)) (nfiles : Int) : List FileId → Option (List (Option Int) × Int)
  | [] => some (files, nfiles)
  | f :: fs => do
    let (files, freed) ← closef files f
    closeAll files (nfiles - freed) fs

def fdfree (s : State) (p : Nat) (fd : Filedesc) : Option (State × Except Errno Nat) :=
  if fd.refcnt - 1 > 0 then some (s.setFd p { fd with refcnt := fd.refcnt - 1 }, .ok 0)
  else do
    let (files, nfiles) ← closeAll s.files s.nfiles fd.openFiles
    return ({ files := files, nfiles := nfiles, procs := s.procs.set p none }, .ok 0)

/-! ## Calls -/

inductive Op
  | falloc (l : Limits)
  | dup (old dst : Nat) (l : Limits)
  | dup2 (old new : Nat) (l : Limits)
  | dupfd (old newmin : Nat) (l : Limits)
  | close (i : Nat)
  | fdcopy
  | fdfree
  deriving DecidableEq, Repr

/-- A call by process `p`. -/
def call (s : State) (p : Nat) (fd : Filedesc) : Op → Option (State × Except Errno Nat)
  | .falloc l => some (falloc s p fd l)
  | .dup old dst l => dup s p fd old dst l
  | .dup2 old new l => dup2 s p fd old new l
  | .dupfd old newmin l => dupfd s p fd old newmin l
  | .close i => close s p fd i
  | .fdcopy => fdcopy s fd
  | .fdfree => fdfree s p fd

/-- The system after a call, or after a panic; only a process with a table calls. -/
def step : Option State → Nat × Op → Option State
  | none, _ => none
  | some s, (p, op) =>
    match s.fdOf p with
    | none => some s
    | some fd => (call s p fd op).map Prod.fst

/-- The first process, with an empty table. -/
def init : State := ⟨[], 0, [some ⟨List.replicate NDFILE Slot.zero, 0, 0, 1⟩]⟩

end BsdKernel.Descrip
