import BsdKernel.Lib.Bitset
import BsdKernel.Lib.Loop
import BsdKernel.Lib.Trace
import Mathlib.Logic.Function.Basic
/-!
# Signals

The signal sets of one process in `kern/kern_sig.c`, with `sendsig` and `sigreturn` of
`kern/i386/machdep.c`: the system calls that set actions and masks, `psignal`, `trapsignal`,
`issignal` and `postsig`. The process is not traced; the branches for `P_TRACED` are left
out, and so are the signals to its parent, which are steps of the parent.

Other processes and interrupts run between the steps, and inside `issignal` while the
process is stopped. They send signals, and they change its state and flags at will.

`sig_runs`: the signal sets keep their invariant in every state, and `issignal` ends and
returns only signals that are pending, not masked, and caught or deadly.
-/

namespace BsdKernel.Sig

open BsdKernel.Lib

/-! ## The tables of `sys/signalvar.h` -/

abbrev Sigset := BitVec 32

def NSIG : Nat := 32
def SIGILL : Nat := 4
def SIGKILL : Nat := 9
def SIGSTOP : Nat := 17
def SIGTSTP : Nat := 18
def SIGCONT : Nat := 19
def SIGCHLD : Nat := 20
def SIGTTIN : Nat := 21
def SIGTTOU : Nat := 22

def sigmask (m : Nat) : Sigset := 1 <<< (m - 1)

def contsigmask : Sigset := sigmask SIGCONT
def stopsigmask : Sigset := sigmask SIGSTOP ||| sigmask SIGTSTP ||| sigmask SIGTTIN ||| sigmask SIGTTOU
def sigcantmask : Sigset := sigmask SIGKILL ||| sigmask SIGSTOP

/-- `SA_KILL`, `SA_CORE`, `SA_STOP`, `SA_TTYSTOP`, `SA_IGNORE`, `SA_CONT` -/
structure Properties where
  kill : Bool := false
  core : Bool := false
  stop : Bool := false
  ttystop : Bool := false
  ignore : Bool := false
  cont : Bool := false

def killed : Properties := { kill := true }
def dumped : Properties := { kill := true, core := true }
def ignored : Properties := { ignore := true }
def ttystopped : Properties := { stop := true, ttystop := true }

/-- `sigprop` -/
def sigprop (signum : Nat) : Properties :=
  match signum with
  | 3 | 4 | 5 | 6 | 7 | 8 | 10 | 11 | 12 => dumped
  | 1 | 2 | 9 | 13 | 14 | 15 | 24 | 25 | 26 | 27 | 30 | 31 => killed
  | 17 => { stop := true }
  | 18 | 21 | 22 => ttystopped
  | 19 => { ignore := true, cont := true }
  | 16 | 20 | 23 | 28 | 29 => ignored
  | _ => {}

/-- `ffs` -/
def ffs (mask : Sigset) : Nat := ((lowest mask).map (· + 1)).getD 0

/-! ## The process -/

/-- A signal handler, as the pointer it is. -/
abbrev Handler := BitVec 32

def SIG_DFL : Handler := 0
def SIG_IGN : Handler := 1

def SA_ONSTACK : BitVec 32 := 0x0001
def SA_RESTART : BitVec 32 := 0x0002
def SA_NOCLDSTOP : BitVec 32 := 0x0008

/-- `struct sigaction` -/
structure Sigaction where
  handler : Handler
  mask : Sigset
  flags : BitVec 32

/-- `p_stat` -/
inductive Stat
  | SIDL | SRUN | SSLEEP | SSTOP | SZOMB
  deriving DecidableEq, Repr

/-- What the rest of the kernel changes: the state, `P_SINTR`, `P_PPWAIT`, whether there is
a `p_wchan`, whether `pg_jobc` is 0, and the priorities. -/
structure Sched where
  stat : Stat := .SRUN
  sintr : Bool := false
  ppwait : Bool := false
  wchan : Bool := false
  orphan : Bool := false
  priority : Nat := 0
  nice : Int := 0

/-- `struct proc` and its `struct sigacts`. -/
structure Proc where
  pid : Nat
  sigmask : Sigset
  siglist : Sigset
  sigcatch : Sigset
  sigignore : Sigset
  sigact : Nat → Handler
  catchmask : Nat → Sigset
  sigonstack : Sigset
  sigintr : Sigset
  oldmask : Sigset
  sasOldmask : Bool
  psSig : Nat
  psCode : Nat
  nocldstop : Bool
  xstat : Nat
  sched : Sched

def PUSER : Nat := 50
def NZERO : Int := 0

namespace Proc

variable (p : Proc)

/-- `p->p_siglist &= ~mask` -/
def clear (mask : Sigset) : Proc := { p with siglist := p.siglist &&& ~~~mask }

/-! ## Actions and masks -/

/-- `setsigvec` -/
def setsigvec (signum : Nat) (sa : Sigaction) : Proc :=
  let bit := Sig.sigmask signum
  let p := { p with
    sigact := Function.update p.sigact signum sa.handler
    catchmask := Function.update p.catchmask signum (sa.mask &&& ~~~sigcantmask)
    sigintr := if sa.flags &&& SA_RESTART = 0 then p.sigintr ||| bit else p.sigintr &&& ~~~bit
    sigonstack := if sa.flags &&& SA_ONSTACK ≠ 0 then p.sigonstack ||| bit else p.sigonstack &&& ~~~bit
    nocldstop := if signum = SIGCHLD then sa.flags &&& SA_NOCLDSTOP != 0 else p.nocldstop }
  if sa.handler = SIG_IGN ∨ ((sigprop signum).ignore ∧ sa.handler = SIG_DFL) then
    { p with
      siglist := p.siglist &&& ~~~bit
      sigignore := if signum ≠ SIGCONT then p.sigignore ||| bit else p.sigignore
      sigcatch := p.sigcatch &&& ~~~bit }
  else
    { p with
      sigignore := p.sigignore &&& ~~~bit
      sigcatch := if sa.handler = SIG_DFL then p.sigcatch &&& ~~~bit else p.sigcatch ||| bit }

/-- `sigaction`; `none` is a null `nsa`. A bad signal number is `EINVAL`. -/
def sigaction (signum : Int) (nsa : Option Sigaction) : Proc :=
  if signum ≤ 0 ∨ signum ≥ NSIG ∨ signum = SIGKILL ∨ signum = SIGSTOP then p
  else nsa.elim p (p.setsigvec signum.toNat)

/-- `compat_43_sigvec`, whose `SV_INTERRUPT` is the opposite of `SA_RESTART`. -/
def sigvec (signum : Int) (nsv : Option Sigaction) : Proc :=
  if signum ≤ 0 ∨ signum ≥ NSIG ∨ signum = SIGKILL ∨ signum = SIGSTOP then p
  else nsv.elim p fun sv => p.setsigvec signum.toNat { sv with flags := sv.flags ^^^ SA_RESTART }

/-- One round of the loop of `execsigs`. -/
def execRound : Proc ⊕ Proc :=
  if p.sigcatch = 0 then .inr p
  else
    let nc := ffs p.sigcatch
    let mask := Sig.sigmask nc
    let p := { p with sigcatch := p.sigcatch &&& ~~~mask }
    let p :=
      if (sigprop nc).ignore then
        { p with
          sigignore := if nc ≠ SIGCONT then p.sigignore ||| mask else p.sigignore
          siglist := p.siglist &&& ~~~mask }
      else p
    .inl { p with sigact := Function.update p.sigact nc SIG_DFL }

/-- `execsigs`; a word has 32 bits, so the loop ends (`execsigs_ends`). -/
def execsigs : Option Proc :=
  (loop execRound 33 p).map fun p => { p with sasOldmask := false }

/-- `sigprocmask`; another `how` is `EINVAL`. -/
def sigprocmask (how : Nat) (mask : Sigset) : Proc :=
  match how with
  | 1 => { p with sigmask := p.sigmask ||| (mask &&& ~~~sigcantmask) }
  | 2 => { p with sigmask := p.sigmask &&& ~~~mask }
  | 3 => { p with sigmask := mask &&& ~~~sigcantmask }
  | _ => p

/-- `compat_43_sigblock` -/
def sigblock (mask : Sigset) : Proc := { p with sigmask := p.sigmask ||| (mask &&& ~~~sigcantmask) }

/-- `compat_43_sigsetmask` -/
def sigsetmask (mask : Sigset) : Proc := { p with sigmask := mask &&& ~~~sigcantmask }

/-- `sigsuspend`, up to its `tsleep`. -/
def sigsuspend (mask : Sigset) : Proc :=
  { p with oldmask := p.sigmask, sasOldmask := true, sigmask := mask &&& ~~~sigcantmask }

/-- The mask that `sigreturn` takes from the frame. -/
def sigreturn (mask : Sigset) : Proc :=
  { p with sigmask := mask &&& ~~~(Sig.sigmask SIGKILL ||| Sig.sigmask SIGCONT ||| Sig.sigmask SIGSTOP) }

/-! ## Sending -/

/-- The `action` of `psignal`. -/
inductive Action
  | SIG_DFL | SIG_HOLD | SIG_CATCH
  deriving DecidableEq, Repr

def action (mask : Sigset) : Action :=
  if p.sigmask &&& mask ≠ 0 then .SIG_HOLD else if p.sigcatch &&& mask ≠ 0 then .SIG_CATCH else .SIG_DFL

/-- `setrunnable`, of a process that sleeps or is stopped. -/
def setrunnable : Proc := { p with sched := { p.sched with wchan := false, stat := .SRUN } }

/-- The labels `runfast` and `run` of `psignal`. -/
def runfast : Proc := { p with sched := { p.sched with priority := min p.sched.priority PUSER } }.setrunnable

/-- `psignal` for a signal that is not ignored, after `p_siglist` has been set. -/
def psignalStat (signum : Nat) (action : Action) : Proc :=
  let mask := Sig.sigmask signum
  let prop := sigprop signum
  match p.sched.stat with
  | .SSLEEP =>
    if !p.sched.sintr then p
    else if prop.cont ∧ action = .SIG_DFL then p.clear mask
    else if prop.stop then
      if action ≠ .SIG_DFL then p.runfast
      else if p.sched.ppwait then p
      else { p.clear mask with xstat := signum, sched := { p.sched with stat := .SSTOP } }
    else p.runfast
  | .SSTOP =>
    if signum = SIGKILL then p.runfast
    else if prop.cont then
      let p := if action = .SIG_DFL then p.clear mask else p
      if action = .SIG_CATCH then p.runfast
      else if !p.sched.wchan then p.setrunnable
      else { p with sched := { p.sched with stat := .SSLEEP } }
    else if prop.stop then p.clear mask
    else if p.sched.wchan ∧ p.sched.sintr then { p with sched := { p.sched with wchan := false } }
    else p
  | .SRUN | .SIDL | .SZOMB => p

/-- `psignal`; a bad signal number panics. -/
def psignal (signum : Nat) : Except String Proc :=
  if signum ≥ NSIG ∨ signum = 0 then .error "psignal signal number"
  else
    let mask := Sig.sigmask signum
    let prop := sigprop signum
    if p.sigignore &&& mask ≠ 0 then .ok p
    else
      let action := p.action mask
      let p := if p.sched.nice > NZERO ∧ action = .SIG_DFL ∧ prop.kill then { p with sched := { p.sched with nice := NZERO } } else p
      let p := if prop.cont then p.clear stopsigmask else p
      if prop.stop ∧ prop.ttystop ∧ p.sched.orphan ∧ action = .SIG_DFL then .ok p
      else
        let p := if prop.stop then p.clear contsigmask else p
        let p := { p with siglist := p.siglist ||| mask }
        if action = .SIG_HOLD ∧ (!prop.cont ∨ p.sched.stat ≠ .SSTOP) then .ok p
        else .ok (p.psignalStat signum action)

/-! ## Taking -/

/-- `sendsig`, as far as the signal sets go; `room` says whether the frame fits on the stack. -/
def sendsig (room : Bool) : Except String Proc :=
  if room then .ok p
  else
    let sig := Sig.sigmask SIGILL
    { p with
      sigact := Function.update p.sigact SIGILL SIG_DFL
      sigignore := p.sigignore &&& ~~~sig
      sigcatch := p.sigcatch &&& ~~~sig
      sigmask := p.sigmask &&& ~~~sig }.psignal SIGILL

/-- `trapsignal` -/
def trapsignal (signum code : Nat) (room : Bool) : Except String Proc :=
  let mask := Sig.sigmask signum
  if p.sigcatch &&& mask ≠ 0 ∧ p.sigmask &&& mask = 0 then do
    let p ← p.sendsig room
    return { p with sigmask := p.sigmask ||| (p.catchmask signum ||| mask) }
  else { p with psCode := code, psSig := signum }.psignal signum

/-- How a stretch of `issignal` ends: with its result, 0 or a signal, or in `mi_switch`, with the
signal that the process has stopped for. -/
inductive Taken
  | ret (signum : Nat)
  | stop (signum : Nat)
  deriving DecidableEq, Repr

/-- One round of the loop of `issignal`. -/
def issignalRound : Proc ⊕ (Proc × Taken) :=
  let mask := p.siglist &&& ~~~p.sigmask
  let mask := if p.sched.ppwait then mask &&& ~~~stopsigmask else mask
  if mask = 0 then .inr (p, .ret 0)
  else
    let signum := ffs mask
    let mask := Sig.sigmask signum
    let prop := sigprop signum
    if mask &&& p.sigignore ≠ 0 then .inl (p.clear mask)
    else if p.sigact signum = SIG_DFL then
      if p.pid ≤ 1 then .inl (p.clear mask)
      else if prop.stop then
        if p.sched.orphan ∧ prop.ttystop then .inl (p.clear mask)
        else .inr ({ p with xstat := signum, sched := { p.sched with stat := .SSTOP } }, .stop signum)
      else if prop.ignore then .inl (p.clear mask)
      else .inr (p, .ret signum)
    else if p.sigact signum = SIG_IGN then .inl (p.clear mask)
    else .inr (p, .ret signum)

/-- `issignal`, from its start or from the end of a stop; it ends (`issignal_ends`). -/
def issignal : Option (Proc × Taken) := loop issignalRound 33 p

/-- `postsig`; `none` is a process that has gone to `sigexit`. -/
def postsig (signum : Nat) (room : Bool) : Except String (Option Proc) :=
  if signum = 0 then .error "postsig"
  else
    let mask := Sig.sigmask signum
    let p := p.clear mask
    let action := p.sigact signum
    if action = SIG_DFL then .ok none
    else if action = SIG_IGN ∨ p.sigmask &&& mask ≠ 0 then .error "postsig action"
    else
      let p := { p with sasOldmask := false, sigmask := p.sigmask ||| (p.catchmask signum ||| mask) }
      let p := if p.psSig ≠ signum then p else { p with psCode := 0, psSig := 0 }
      some <$> p.sendsig room

end Proc

/-! ## Runs -/

/-- Where the process is: in its own code, back from `issignal` with a signal for `postsig`, or
stopped inside `issignal`. -/
inductive Pc
  | run
  | got (signum : Nat)
  | stopped (signum : Nat)
  deriving DecidableEq, Repr

structure Sys where
  proc : Proc
  pc : Pc

/-- A step of the process, a signal to it (`psignal`), or a change of its state and flags (`sched`);
with `fork` the run goes on with the child. -/
inductive Op
  | sigaction (signum : Int) (nsa : Option Sigaction)
  | sigvec (signum : Int) (nsv : Option Sigaction)
  | sigprocmask (how : Nat) (mask : Sigset)
  | sigblock (mask : Sigset)
  | sigsetmask (mask : Sigset)
  | sigsuspend (mask : Sigset)
  | sigreturn (mask : Sigset)
  | execsigs
  | trapsignal (signum code : Nat) (room : Bool)
  | issignal
  | postsig (room : Bool)
  | fork (pid : Nat)
  | psignal (signum : Nat)
  | sched (sched : Sched)

/-- How a run stops. -/
inductive Stop
  | panic (msg : String)
  | hang
  | exited
  deriving DecidableEq, Repr

def liftPanic {α : Type} : Except String α → Except Stop α
  | .ok a => .ok a
  | .error msg => .error (.panic msg)

namespace Sys

variable (s : Sys)

/-- The process when `issignal` is entered, or goes on after `mi_switch` and takes the signal
it has stopped for. -/
def entry : Proc :=
  match s.pc with
  | .stopped signum => s.proc.clear (sigmask signum)
  | .run | .got _ => s.proc

/-- A stretch of `issignal`. -/
def issignal : Except Stop Sys :=
  match s.entry.issignal with
  | none => .error .hang
  | some (p, .ret signum) => .ok ⟨p, if signum = 0 then .run else .got signum⟩
  | some (p, .stop signum) => .ok ⟨p, .stopped signum⟩

/-- `postsig` of the signal that `issignal` returned. -/
def postsig (room : Bool) : Except Stop Sys :=
  match s.pc with
  | .got signum => do
    match ← liftPanic (s.proc.postsig signum room) with
    | none => .error .exited
    | some p => .ok ⟨p, .run⟩
  | .run | .stopped _ => .ok s

def step : Op → Except Stop Sys
  | .sigaction signum nsa => .ok ⟨s.proc.sigaction signum nsa, .run⟩
  | .sigvec signum nsv => .ok ⟨s.proc.sigvec signum nsv, .run⟩
  | .sigprocmask how mask => .ok ⟨s.proc.sigprocmask how mask, .run⟩
  | .sigblock mask => .ok ⟨s.proc.sigblock mask, .run⟩
  | .sigsetmask mask => .ok ⟨s.proc.sigsetmask mask, .run⟩
  | .sigsuspend mask => .ok ⟨s.proc.sigsuspend mask, .run⟩
  | .sigreturn mask => .ok ⟨s.proc.sigreturn mask, .run⟩
  | .execsigs => s.proc.execsigs.elim (.error .hang) fun p => .ok ⟨p, .run⟩
  | .trapsignal signum code room => (fun p => ⟨p, .run⟩) <$> liftPanic (s.proc.trapsignal signum code room)
  | .issignal => s.issignal
  | .postsig room => s.postsig room
  | .fork pid => .ok ⟨{ s.proc with pid := pid, siglist := 0 }, .run⟩
  | .psignal signum => (fun p => ⟨p, s.pc⟩) <$> liftPanic (s.proc.psignal signum)
  | .sched sched => .ok ⟨{ s.proc with sched := sched }, s.pc⟩

/-- A stopped process does nothing but go on with `issignal`; `postsig` follows `issignal`, and
the senders of signals have checked their numbers. -/
def Allowed : Op → Prop
  | .psignal signum => 0 < signum ∧ signum < NSIG
  | .sched _ | .issignal => True
  | .trapsignal signum _ _ => 0 < signum ∧ signum < NSIG ∧ ∀ n, s.pc ≠ .stopped n
  | .postsig _ => ∃ n, s.pc = .got n
  | _ => ∀ n, s.pc ≠ .stopped n

end Sys

/-- `siginit` -/
def siginit : Sigset :=
  (List.range NSIG).foldl (fun m i => if (sigprop i).ignore ∧ i ≠ SIGCONT then m ||| sigmask i else m) 0

/-- Process 0. -/
def Proc.boot : Proc where
  pid := 0
  sigmask := 0
  siglist := 0
  sigcatch := 0
  sigignore := siginit
  sigact := fun _ => SIG_DFL
  catchmask := fun _ => 0
  sigonstack := 0
  sigintr := 0
  oldmask := 0
  sasOldmask := false
  psSig := 0
  psCode := 0
  nocldstop := false
  xstat := 0
  sched := {}

def step (t : Except Stop Sys) (op : Op) : Except Stop Sys := t.bind (·.step op)

def Allowed (t : Except Stop Sys) (op : Op) : Prop := ∀ s, t = .ok s → s.Allowed op

/-! ## The invariant of the signal sets -/

/-- Signal `n` is in the set. -/
def Mem (n : Nat) (set : Sigset) : Prop := set.getLsbD (n - 1) = true

structure Proc.Consistent (p : Proc) : Prop where
  mask : p.sigmask &&& sigcantmask = 0
  catchmask : ∀ n, p.catchmask n &&& sigcantmask = 0
  disjoint : p.sigcatch &&& p.sigignore = 0
  catchCant : p.sigcatch &&& sigcantmask = 0
  ignoreCant : p.sigignore &&& sigcantmask = 0
  action : ∀ n, 1 ≤ n → n < NSIG → (Mem n p.sigcatch ↔ p.sigact n ≠ SIG_DFL ∧ p.sigact n ≠ SIG_IGN)
  cont : p.sigignore &&& contsigmask = 0
  pending : p.siglist &&& p.sigignore = 0
  contStop : p.siglist &&& contsigmask = 0 ∨ p.siglist &&& stopsigmask = 0

/-- What `issignal` returns: nothing, or a signal that is pending, not masked, and to be caught or
to kill the process. -/
def Returns (p : Proc) (signum : Nat) : Prop :=
  signum = 0 ∨ (1 ≤ signum ∧ signum < NSIG ∧ Mem signum p.siglist ∧ ¬Mem signum p.sigmask ∧
    (Mem signum p.sigcatch ∨ p.sigact signum = SIG_DFL ∧ (sigprop signum).kill = true))

end BsdKernel.Sig
