import Mathlib.Data.List.Basic
import Mathlib.Tactic
/-!
# Garbage collection of files in flight

`unp_gc` of `kern/uipc_usrreq.c` with `unp_scan`, `unp_mark` and `unp_discard`, and
what it needs of `closef`, `soclose` and `sorflush`. A file that is sent in a message
(`SCM_RIGHTS`) is held by the receive queue it waits in. `unp_gc` marks the files that
descriptor tables hold and those in the receive queues of marked sockets, and takes
the others to be garbage: it flushes their queues and closes them.

`closef`, `soclose` and `sorflush` call each other. The calls still to be made are a
stack of `Act`s, in the order in which they are made.

Connections on the accept queue of a listening socket have a receive queue, but no
file, and are not marked through. `Cond` is what has to hold for `unp_gc` to discard
exactly the garbage.
-/

namespace BsdKernel.Unp

/-- `f_type`, and for a socket `f_data`. -/
inductive Kind
  | vnode
  | socket (so : Option Nat)
  deriving DecidableEq, Repr

structure File where
  kind : Kind
  count : Int
  msgcount : Int
  /-- `FMARK`. -/
  mark : Bool
  /-- `FDEFER`. -/
  defer : Bool
  deriving DecidableEq, Repr

structure Socket where
  /-- The protocol is of the Unix domain, with `PR_RIGHTS`. -/
  rights : Bool
  /-- The records of `so_rcv`, each with the files of its control mbuf. -/
  rcv : List (List Nat)
  /-- `so_q0` and `so_q`. -/
  q : List Nat
  deriving DecidableEq, Repr

structure Sys where
  filehead : List Nat
  file : Nat → File
  /-- The sockets there are. -/
  sockets : List Nat
  socket : Nat → Socket
  unpDefer : Int

section Code
variable (s : Sys) (f : Nat)

def Sys.setFile (g : File → File) : Sys := { s with file := Function.update s.file f (g (s.file f)) }

/-- `f_data` of a socket. -/
def Sys.data : Option Nat :=
  match (s.file f).kind with
  | .vnode => none
  | .socket so => so

/-! ## The mark phase -/

/-- `unp_mark`. -/
def unpMark : Sys :=
  if (s.file f).mark then s
  else { s.setFile f fun fp => { fp with mark := true, defer := true } with unpDefer := s.unpDefer + 1 }

/-- `unp_scan`. -/
def unpScan (op : Sys → Nat → Sys) (rcv : List (List Nat)) : Sys := rcv.flatten.foldl op s

/-- The end of the loop body: the queue of a socket that passes rights is scanned. -/
def scanFile : Sys :=
  match s.data f with
  | none => s
  | some so => if (s.socket so).rights then unpScan s unpMark (s.socket so).rcv else s

/-- The body of the loop over the files. -/
def visit : Sys :=
  if (s.file f).count = 0 then s
  else if (s.file f).defer then
    scanFile { s.setFile f fun fp => { fp with defer := false } with unpDefer := s.unpDefer - 1 } f
  else if (s.file f).mark then s
  else if (s.file f).count = (s.file f).msgcount then s
  else scanFile (s.setFile f fun fp => { fp with mark := true }) f

/-- `do ... while (unp_defer)`, in at most so many passes. -/
def markLoop : Nat → Sys → Sys
  | 0, s => s
  | n + 1, s =>
    let s := s.filehead.foldl visit s
    if s.unpDefer = 0 then s else markLoop n s

def unmark : Sys := s.setFile f fun fp => { fp with mark := false, defer := false }

/-- The files with `FMARK` are those that are accessible. -/
def markPhase : Sys :=
  let s := s.filehead.foldl unmark { s with unpDefer := 0 }
  markLoop (s.filehead.length + 1) s

/-! ## The sweep -/

inductive Act
  | closef (f : Nat)
  /-- `unp_discard`. -/
  | discard (f : Nat)
  | sorflush (so : Nat)
  deriving DecidableEq, Repr

/-- The queues that `soclose` flushes: those on the accept queue, which are aborted,
and the socket's own. -/
def Sys.flushes : List Act :=
  match s.data f with
  | none => []
  | some so => (s.socket so).q.map .sorflush ++ [.sorflush so]

/-- A call up to the calls it makes, which come next. `none` is the `panic` of `closef`. -/
def act : Act → Option (Sys × List Act)
  | .discard f => some (s.setFile f fun fp => { fp with msgcount := fp.msgcount - 1 }, [.closef f])
  | .closef f =>
    let s := s.setFile f fun fp => { fp with count := fp.count - 1 }
    if (s.file f).count > 0 then some (s, [])
    else if (s.file f).count < 0 then none
    else some ({ s with filehead := s.filehead.erase f }, s.flushes f)
  | .sorflush so =>
    some ({ s with socket := Function.update s.socket so { s.socket so with rcv := [] } },
      if (s.socket so).rights then (s.socket so).rcv.flatten.map .discard else [])

def run : Nat → Sys → List Act → Option Sys
  | _, s, [] => some s
  | 0, _, _ :: _ => none
  | n + 1, s, a :: stack => (act s a).bind fun (s, calls) => run n s (calls ++ stack)

/-- The calls that are left to be made. -/
def Act.work : Act → Nat
  | .closef _ => 1
  | .discard _ => 2
  | .sorflush _ => 1

def work (stack : List Act) : Nat :=
  (stack.map Act.work).sum + 2 * (s.sockets.map fun so => (s.socket so).rcv.flatten.length).sum +
    (s.filehead.map fun f => (s.flushes f).length).sum

/-- `sorflush` of `f_data`, whatever it is: for a vnode nothing is known of it. -/
def flushData : List Act :=
  match s.data f with
  | none => []
  | some so => [.sorflush so]

/-- `extra_ref`. -/
def unref : List Nat :=
  s.filehead.filter fun f => (s.file f).count ≠ 0 ∧ (s.file f).count = (s.file f).msgcount ∧ (s.file f).mark = false

/-- `unp_gc`: the system after it, and the files it calls `sorflush` on. -/
def unpGc : Option (Sys × List Nat) :=
  let s := markPhase s
  let extra := unref s
  let s := extra.foldl (fun s f => s.setFile f fun fp => { fp with count := fp.count + 1 }) s
  let stack := extra.flatMap (flushData s) ++ extra.map .closef
  (run (work s stack) s stack).map fun s => (s, extra)

end Code

/-! ## What it is for -/

/-- The messages that hold the file. -/
def Sys.refs (s : Sys) (f : Nat) : Nat := (s.sockets.map fun so => (s.socket so).rcv.flatten.count f).sum

/-- `fds` are the descriptors that refer to each file. The counts are right, files and
sockets in use are on their lists, a socket has one file or is on one accept queue, and
a file that is being closed has flushed its queues. -/
structure Correct (s : Sys) (fds : Nat → Nat) : Prop where
  files : s.filehead.Nodup
  sockets : s.sockets.Nodup
  counts : ∀ f ∈ s.filehead, (s.file f).count = fds f + s.refs f ∧ (s.file f).msgcount = s.refs f
  gone : ∀ f, f ∉ s.filehead → fds f = 0 ∧ s.refs f = 0
  queues : ∀ so, (s.socket so).rcv.flatten ≠ [] → so ∈ s.sockets ∧ (s.socket so).rights = true ∧
    ∃ f ∈ s.filehead, (s.file f).count ≠ 0 ∧ (s.data f = some so ∨ ∃ head, s.data f = some head ∧ so ∈ (s.socket head).q)
  owner : ∀ f ∈ s.filehead, ∀ g ∈ s.filehead, ∀ so, s.data f = some so → s.data g = some so → f = g
  accept : ∀ f ∈ s.filehead, ∀ head, s.data f = some head → ∀ so ∈ (s.socket head).q,
    (∀ g ∈ s.filehead, s.data g ≠ some so) ∧
      ∀ g ∈ s.filehead, ∀ head', s.data g = some head' → so ∈ (s.socket head').q → f = g
  nosocket : ∀ f ∈ s.filehead, (s.file f).kind = .socket none → (s.file f).count ≠ 0 → 0 < fds f

/-- The file is in the receive queue of the socket `f`. -/
def Sys.Queued (s : Sys) (f g : Nat) : Prop := ∃ so, s.data f = some so ∧ g ∈ (s.socket so).rcv.flatten

/-- The file is in the receive queue of a connection that waits on the accept queue of
the socket `f`. -/
def Sys.Waiting (s : Sys) (f g : Nat) : Prop :=
  ∃ head, s.data f = some head ∧ ∃ so ∈ (s.socket head).q, g ∈ (s.socket so).rcv.flatten

section Reach
variable (s : Sys) (fds : Nat → Nat)

/-- A process has a descriptor for the file, or can receive one, also from a connection
that it accepts. -/
inductive Reach : Nat → Prop
  | held {f : Nat} : 0 < fds f → Reach f
  | queued {f g : Nat} : Reach f → s.Queued f g → Reach g
  | waiting {f g : Nat} : Reach f → s.Waiting f g → Reach g

/-- The same without the connections that are not yet accepted. -/
inductive ReachRcv : Nat → Prop
  | held {f : Nat} : 0 < fds f → ReachRcv f
  | queued {f g : Nat} : ReachRcv f → s.Queued f g → ReachRcv g

/-- `unp_gc` discards the files that cannot be reached and no others: these are closed,
the others are open with their queues as they were, and only sockets are flushed. -/
structure Discards (s' : Sys) (flushed : List Nat) : Prop where
  sockets : ∀ f ∈ flushed, ∃ so, (s.file f).kind = .socket so
  keeps : ∀ f ∈ s.filehead, (s.file f).count ≠ 0 → Reach s fds f →
    f ∈ s'.filehead ∧ f ∉ flushed ∧ ∀ so, s.data f = some so → s'.socket so = s.socket so
  closes : ∀ f ∈ s.filehead, (s.file f).count ≠ 0 → ¬Reach s fds f → f ∉ s'.filehead

/-- No file is reached only through an accept queue, no vnode is out of reach, and no
files out of reach hold each other through accept queues. -/
structure Cond : Prop where
  accepted : ∀ f g, ReachRcv s fds f → s.Waiting f g → ReachRcv s fds g
  vnodes : ∀ f ∈ s.filehead, (s.file f).count ≠ 0 → (s.file f).kind = .vnode → ReachRcv s fds f
  cycles : ∀ S : Set Nat, (∀ g ∈ S, g ∈ s.filehead ∧ ¬ReachRcv s fds g ∧ ∃ f ∈ S, s.Waiting f g) → S = ∅

end Reach

end BsdKernel.Unp
