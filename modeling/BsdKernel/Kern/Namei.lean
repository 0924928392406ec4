import BsdKernel.Lib.Trace
import Mathlib.Data.Finset.Basic
import Mathlib.Data.Multiset.AddSub
/-!
# Path lookup

`kern/vfs_lookup.c`: `namei`, `lookup` and `relookup`, over the bytes of the path and over what the
process has: the references, the locks and the path buffers. `copyinstr`, `VOP_LOOKUP`, the table of
mounts with `VFS_ROOT`, and `VOP_READLINK` answer when they are asked.

A string ends at a NUL or at the end of its list. Left out are the credentials, the name cache
(`MAKEENTRY`, `NOCACHE`, `cn_hash`), the traces, and the checks under `DIAGNOSTIC`.
-/

namespace BsdKernel.Namei

open BsdKernel.Lib

/-! ## Requests -/

inductive Errno
  | ENOENT | ENOTDIR | EISDIR | EROFS | ENAMETOOLONG | ELOOP
  | other (n : Nat)
  deriving DecidableEq, Repr

/-- `cn_nameiop` -/
inductive Nameiop
  | LOOKUP | CREATE | DELETE | RENAME
  deriving DecidableEq, Repr

/-- What the caller has set of `cn_nameiop` and `cn_flags`. `wantparentFlag` is `WANTPARENT`. -/
structure Request where
  nameiop : Nameiop := .LOOKUP
  lockleaf : Bool := false
  lockparent : Bool := false
  wantparentFlag : Bool := false
  follow : Bool := false
  nocrossmount : Bool := false
  rdonly : Bool := false
  hasbuf : Bool := false
  savename : Bool := false
  savestart : Bool := false
  deriving DecidableEq, Repr

/-- The variable `wantparent` of `lookup`. -/
def Request.wantparent (q : Request) : Bool := q.lockparent || q.wantparentFlag

/-- The operations that a read-only lookup refuses at the last component. -/
def Request.writes (q : Request) : Bool := q.rdonly && (q.nameiop = .DELETE || q.nameiop = .RENAME)

inductive Vtype
  | VDIR | VLNK | other
  deriving DecidableEq, Repr

/-- The vnodes, the mounts they are on, and the directories that lookups start at. -/
structure World (V : Type) where
  type : V → Vtype
  vroot : V → Bool
  covered : V → V
  union : V → Bool
  rootvnode : V
  rootdir : V
  cdir : V

def NAME_MAX : Nat := 255
def MAXPATHLEN : Nat := 1024
def MAXSYMLINKS : Nat := 8

/-! ## Strings -/

def SLASH : UInt8 := 47
def DOT : UInt8 := 46

/-- `*cp` -/
def deref (cp : List UInt8) : UInt8 := cp.headD 0

/-- Whether a byte is inside a component. -/
def inComponent (c : UInt8) : Bool := c != 0 && c != SLASH

/-- The component that `cn_nameptr` points to. -/
def component (nameptr : List UInt8) : List UInt8 := nameptr.takeWhile inComponent

def strlen (cp : List UInt8) : Nat := (cp.takeWhile (· != 0)).length

/-- The number of slashes that the loops on `'/'` step over. -/
def slashes (cp : List UInt8) : Nat := (cp.takeWhile (· == SLASH)).length

/-! ## References, locks and buffers -/

/-- What the process has, and whether it has given back or locked what it must not. -/
@[ext]
structure Ledger (V : Type) where
  refs : Multiset V
  locked : Finset V
  bufs : Nat
  fault : Bool
  deriving DecidableEq

namespace Ledger
variable {V : Type} [DecidableEq V] (l : Ledger V) (v : V)

def VREF : Ledger V := { l with refs := v ::ₘ l.refs }

def vrele : Ledger V :=
  if v ∈ l.refs then { l with refs := l.refs.erase v } else { l with fault := true }

/-- `vn_lock`, which waits for other processes and not for this one. -/
def lock : Ledger V :=
  if v ∈ l.locked then { l with fault := true } else { l with locked := insert v l.locked }

/-- `VOP_UNLOCK` -/
def unlock : Ledger V :=
  if v ∈ l.locked then { l with locked := l.locked.erase v } else { l with fault := true }

def vput : Ledger V := (l.unlock v).vrele v

def malloc : Ledger V := { l with bufs := l.bufs + 1 }

def free : Ledger V := if l.bufs = 0 then { l with fault := true } else { l with bufs := l.bufs - 1 }

end Ledger

/-! ## States -/

/-- `ni_vp`, `ni_dvp` and `ni_startdir` when the lookup has succeeded. -/
structure Result (V : Type) where
  vp : Option V
  dvp : Option V
  startdir : Option V
  deriving DecidableEq, Repr

/-- Where the process is. `crossing dvp target dp` has come from the vnode `target` that `VOP_LOOKUP`
gave in `dvp` to `dp`, over mounts; the code does not keep `target`. -/
inductive Pc (V : Type)
  | copyin
  | path (dp : V)
  | lookup (dp : V)
  | dirloop (dp : V)
  | dotdot (dp : V)
  | unionlookup (dp : V)
  | crossing (dvp target dp : V)
  | readlink (dvp vp : V)
  | relookup (dvp : V)
  | research (dvp : V)
  | symlink (dvp vp : V)
  | found (r : Result V)
  | failed (e : Errno)
  | panic
  deriving DecidableEq, Repr

/-- `nameptr` and `next` are what is left of the buffer from there on. `namei` is whether the loop of
`namei` has called `lookup`. -/
structure State (V : Type) where
  pc : Pc V
  namei : Bool
  nameptr : List UInt8
  next : List UInt8
  pathlen : Int
  islastcn : Bool
  isdotdot : Bool
  savename : Bool
  loopcnt : Nat
  led : Ledger V

/-- `cn_flags` may get `SAVENAME` from `VOP_LOOKUP`. -/
inductive Answer (V : Type)
  | found (vp : V) (consume : Nat) (savename : Bool)
  | justreturn (savename : Bool)
  | error (e : Errno)
  deriving DecidableEq, Repr

/-- What is mounted on a directory: `vfs_busy` may fail, and so may `VFS_ROOT`. -/
inductive Mounted (V : Type)
  | none
  | busy
  | error (e : Errno)
  | root (tdp : V)
  deriving DecidableEq, Repr

inductive Input (V : Type)
  | tick
  | copyin (path : Except Errno (List UInt8))
  | lookup (a : Answer V)
  | mounted (m : Mounted V)
  | readlink (link : Except Errno (List UInt8))

variable {V : Type} [DecidableEq V]

namespace State
variable (w : World V) (q : Request) (s : State V)

/-! ## Exits -/

/-- A return with an error to the caller of `lookup`, which is `namei` or the caller of all. -/
def error (e : Errno) : State V :=
  { s with pc := .failed e, led := if s.namei then s.led.free else s.led }

/-- The label `bad`. -/
def bad (dp : V) (e : Errno) : State V := { s with led := s.led.vput dp }.error e

/-- The label `bad2`. -/
def bad2 (dvp dp : V) (e : Errno) : State V :=
  let led := if q.lockparent && deref s.next == 0 then s.led.unlock dvp else s.led
  { s with led := led.vrele dvp }.bad dp e

/-- A return with 0. -/
def done (r : Result V) : State V :=
  { s with pc := .found r, led := if s.namei && !(s.savename || q.savestart) then s.led.free else s.led }

/-- The last statements of `lookup` and of `relookup` before the label `bad2`. -/
def success (dvp dp : V) : State V :=
  let led := if q.savestart then s.led.VREF dvp else s.led
  let led := if q.wantparent then led else led.vrele dvp
  let led := if q.lockleaf then led else led.unlock dp
  { s with led }.done q ⟨some dp, some dvp, if q.savestart then some dvp else none⟩

/-- The statements of `namei` behind its loop. -/
def giveup (dvp vp : V) (e : Errno) : State V :=
  { s with pc := .failed e, led := (s.led.free.vrele dvp).vput vp }

/-! ## Components -/

/-- The loop of `namei` counts a symbolic link and reads it. -/
def followlink (dvp vp : V) : State V :=
  if s.loopcnt ≥ MAXSYMLINKS then { s with loopcnt := s.loopcnt + 1 }.giveup dvp vp .ELOOP
  else
    { s with
      pc := .readlink dvp vp
      loopcnt := s.loopcnt + 1
      led := if s.pathlen > 1 then s.led.malloc else s.led }

/-- `lookup` has found a symbolic link that is to be read. -/
def issymlink (dvp vp : V) : State V :=
  if s.namei then
    { s with led := if q.lockparent && s.pathlen == 1 then s.led.unlock dvp else s.led }.followlink dvp vp
  else { s with pc := .symlink dvp vp }

/-- The label `nextname`. -/
def nextname (dvp dp : V) : State V :=
  if deref s.next == SLASH then
    { s with
      nameptr := s.next.drop (slashes s.next)
      pathlen := s.pathlen - slashes s.next
      led := s.led.vrele dvp
      pc := .dirloop dp }
  else if q.writes then s.bad2 q dvp dp .EROFS
  else s.success q dvp dp

/-- The end of the loop over mounts. -/
def arrived (dvp dp : V) : State V :=
  if w.type dp = .VLNK ∧ (q.follow ∨ deref s.next = SLASH) then s.issymlink q dvp dp else s.nextname q dvp dp

/-- The loop over mounts, once. -/
def crossing (dvp target dp : V) (m : Mounted V) : State V :=
  if w.type dp = .VDIR ∧ q.nocrossmount = false then
    match m with
    | .none => s.arrived w q dvp dp
    | .busy => s
    | .error e => s.bad2 q dvp dp e
    | .root tdp => { s with led := (((s.led.VREF tdp).lock tdp).vput dp), pc := .crossing dvp target tdp }
  else s.arrived w q dvp dp

/-- `vn_lock` at the start of `lookup`. -/
def lookup (dp : V) : State V := { s with led := s.led.lock dp, pc := .dirloop dp }

/-- The name is empty. -/
def degenerate (dp : V) : State V :=
  if w.type dp ≠ .VDIR then s.bad dp .ENOTDIR
  else if q.nameiop ≠ .LOOKUP then s.bad dp .EISDIR
  else
    let led := if q.wantparent then s.led.VREF dp else s.led
    let led := if q.lockparent || q.lockleaf then led else led.unlock dp
    if q.savestart then { s with led, pc := .panic }
    else { s with led }.done q ⟨some dp, if q.wantparent then some dp else none, none⟩

/-- The label `dirloop`. -/
def dirloop (dp : V) : State V :=
  let cn := component s.nameptr
  if cn.length > NAME_MAX then s.bad dp .ENAMETOOLONG
  else
    let next := s.nameptr.drop cn.length
    let s := { s with
      pathlen := s.pathlen - cn.length
      next
      isdotdot := cn == [DOT, DOT]
      islastcn := deref next == 0 }
    if deref s.nameptr = 0 then s.degenerate w q dp
    else if s.isdotdot then { s with pc := .dotdot dp }
    else { s with pc := .unionlookup dp }

/-- The loop on `..`, once. -/
def dotdot (dp : V) : State V :=
  if dp = w.rootdir ∨ dp = w.rootvnode then { s with led := s.led.VREF dp }.nextname q dp dp
  else if w.vroot dp = false ∨ q.nocrossmount then { s with pc := .unionlookup dp }
  else { s with led := ((s.led.vput dp).VREF (w.covered dp)).lock (w.covered dp), pc := .dotdot (w.covered dp) }

/-- What `VOP_LOOKUP` does when it finds `vp` in `dvp`. The directory stays locked if `LOCKPARENT` asks
for it at the last component, and if it is the target itself. -/
def vopFound (dvp vp : V) (savename : Bool) : State V :=
  let led := s.led.VREF vp
  let led := if vp = dvp then led else if q.lockparent && s.islastcn then led.lock vp else (led.lock vp).unlock dvp
  { s with led, savename := s.savename || savename }

/-- What `VOP_LOOKUP` does when it returns `EJUSTRETURN`. -/
def vopJustreturn (dvp : V) (savename : Bool) : State V :=
  { s with led := if q.lockparent then s.led else s.led.unlock dvp, savename := s.savename || savename }

/-- `EJUSTRETURN`, and the entry may be made in `dvp`. -/
def justreturn (dvp : V) : State V :=
  if q.rdonly then s.bad dvp .EROFS
  else
    let led := if q.savestart then s.led.VREF dvp else s.led
    { s with led }.done q ⟨none, some dvp, if q.savestart then some dvp else none⟩

/-- The label `unionlookup`, with the answer of `VOP_LOOKUP`. -/
def unionlookup (dp : V) (a : Answer V) : State V :=
  match a with
  | .found vp consume savename =>
    { s.vopFound q dp vp savename with
      nameptr := s.nameptr.drop consume
      next := s.next.drop consume
      pathlen := s.pathlen - consume
      pc := .crossing dp vp vp }
  | .justreturn savename => (s.vopJustreturn q dp savename).justreturn q dp
  | .error e =>
    if e = .ENOENT ∧ w.vroot dp ∧ w.union dp then
      { s with
        led := ((s.led.vput dp).VREF (w.covered dp)).lock (w.covered dp)
        pc := .unionlookup (w.covered dp) }
    else s.bad dp e

/-! ## `namei` and `relookup` -/

/-- The path has been copied in. -/
def copyin (path : Except Errno (List UInt8)) : State V :=
  match path with
  | .error e => s.error e
  | .ok str =>
    { s with nameptr := str, pathlen := str.length + 1, loopcnt := 0, led := s.led.VREF w.cdir, pc := .path w.cdir }

/-- The top of the loop of `namei`. -/
def path (dp : V) : State V :=
  if deref s.nameptr = SLASH then
    { s with
      nameptr := s.nameptr.drop (slashes s.nameptr)
      pathlen := s.pathlen - slashes s.nameptr
      led := (s.led.vrele dp).VREF w.rootdir
      pc := .lookup w.rootdir }
  else { s with pc := .lookup dp }

/-- `VOP_READLINK` has returned. The rest of the path is moved behind the link. -/
def readlink (dvp vp : V) (link : Except Errno (List UInt8)) : State V :=
  let freed := if s.pathlen > 1 then { s with led := s.led.free } else s
  match link with
  | .error e => freed.giveup dvp vp e
  | .ok link =>
    if link.length + s.pathlen ≥ MAXPATHLEN then freed.giveup dvp vp .ENAMETOOLONG
    else
      { freed with
        nameptr := if s.pathlen > 1 then link ++ s.next.take s.pathlen.toNat else link
        pathlen := s.pathlen + link.length
        led := freed.led.vput vp
        pc := .path dvp }

/-- `relookup`, until it calls `VOP_LOOKUP`. -/
def relookup (dvp : V) : State V :=
  let s := { s with led := s.led.lock dvp }
  if deref s.nameptr = 0 then
    if q.nameiop ≠ .LOOKUP ∨ q.wantparent then s.bad dvp .EISDIR
    else if w.type dvp ≠ .VDIR then s.bad dvp .ENOTDIR
    else
      let led := if q.lockleaf then s.led else s.led.unlock dvp
      if q.savestart then { s with led, pc := .panic } else { s with led }.done q ⟨some dvp, none, none⟩
  else if s.isdotdot then { s with pc := .panic }
  else { s with pc := .research dvp }

/-- `relookup` has called `VOP_LOOKUP`. -/
def research (dvp : V) (a : Answer V) : State V :=
  match a with
  | .error e => s.bad dvp e
  | .justreturn savename => (s.vopJustreturn q dvp savename).justreturn q dvp
  | .found dp _ savename =>
    let s := s.vopFound q dvp dp savename
    if q.writes then
      let led := if q.lockparent && s.islastcn then s.led.unlock dvp else s.led
      { s with led := led.vrele dvp }.bad dp .EROFS
    else s.success q dvp dp

end State

/-! ## Runs -/

/-- One step. An answer that was not asked for changes nothing. -/
def step (w : World V) (q : Request) (s : State V) (i : Input V) : State V :=
  match s.pc, i with
  | .copyin, .copyin path => s.copyin w path
  | .path dp, .tick => s.path w dp
  | .lookup dp, .tick => s.lookup dp
  | .dirloop dp, .tick => s.dirloop w q dp
  | .dotdot dp, .tick => s.dotdot w q dp
  | .unionlookup dp, .lookup a => s.unionlookup w q dp a
  | .crossing dvp target dp, .mounted m => s.crossing w q dvp target dp m
  | .readlink dvp vp, .readlink link => s.readlink dvp vp link
  | .relookup dvp, .tick => s.relookup w q dvp
  | .research dvp, .lookup a => s.research q dvp a
  | _, _ => s

/-- The three ways in. The caller of `lookup` and `relookup` has a reference on the directory, and has
set `cn_nameptr` and what goes with it. -/
inductive Call (V : Type)
  | namei
  | lookup (startdir : V) (nameptr : List UInt8) (pathlen : Int)
  | relookup (dvp : V) (nameptr : List UInt8) (islastcn isdotdot : Bool)

/-- `namei` takes a buffer unless it is given one. -/
def start (q : Request) : Call V → State V
  | .namei =>
    let led : Ledger V := ⟨0, ∅, if q.hasbuf then 1 else 0, false⟩
    ⟨.copyin, true, [], [], 0, false, false, q.savename, 0, if q.hasbuf then led else led.malloc⟩
  | .lookup startdir nameptr pathlen =>
    ⟨.lookup startdir, false, nameptr, [], pathlen, false, false, q.savename, 0, ⟨{startdir}, ∅, 0, false⟩⟩
  | .relookup dvp nameptr islastcn isdotdot =>
    ⟨.relookup dvp, false, nameptr, [], 0, islastcn, isdotdot, q.savename, 0, ⟨{dvp}, ∅, 0, false⟩⟩

end BsdKernel.Namei
