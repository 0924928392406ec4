import BsdKernel.Lib.Loop
import BsdKernel.Lib.Trace
import Mathlib.Algebra.BigOperators.Group.Finset.Basic
import Mathlib.Data.Fintype.Basic
import Mathlib.Logic.Function.Basic
import Mathlib.Tactic
/-!
# The buffer cache

`kern/fs/bio.c`: the buffers of blocks, their hash chains and free lists, reads, delayed and
other writes, and the sleeps in between. The driver below `VOP_STRATEGY` is an input: each
buffer given to it comes back in `biodone`, with an error or without.

The calls are made by processes, so `curproc` is set. Left out are the lists of buffers of a
vnode and its count of writes, the credentials, the accounting, and `B_CALL`.

`block_runs`: a block has at most one buffer, exactly in the runs that hash no second one
after a sleep in `allocbuf`. `buffer_runs`: the lists, the space and the delayed writes.
-/

namespace BsdKernel.Bio

open BsdKernel.Lib

/-! ## Buffers -/

/-- A pointer to a vnode, as an index. -/
abbrev Vnode := Nat

/-- `b_flags` -/
structure Flags where
  read : Bool := false
  done : Bool := false
  error : Bool := false
  busy : Bool := false
  wanted : Bool := false
  age : Bool := false
  async : Bool := false
  delwri : Bool := false
  tape : Bool := false
  dirty : Bool := false
  cache : Bool := false
  inval : Bool := false
  nocache : Bool := false
  deriving DecidableEq, Repr

inductive Holder (P : Type)
  | proc (p : P)
  | io
  deriving DecidableEq, Repr

/-- `struct buf`, whose `addr` is the contents of the storage. The driver has the buffer while it is
`active`. `holders` and `owed` are not in the code: who has the buffer, and what `bdwrite` was given, until
`VOP_STRATEGY` has it for writing. -/
structure Buf (P : Type) where
  flags : Flags
  vp : Option Vnode
  lblkno : Int
  bufsize : Nat
  addr : Option (List UInt8)
  error : Nat
  active : Bool
  holders : List (Holder P)
  owed : Option (Vnode × Int × List UInt8)

/-- The free lists but `BQ_LOCKED`, which is not used. -/
inductive BQ
  | EMPTY | AGE | LRU
  deriving DecidableEq, Repr

def BUFHSZ : Nat := 512
def RND : Int := 128

/-- `BUFHASH` -/
def BUFHASH (vp : Vnode) (blkno : Int) : Nat := (((vp : Int) + blkno.tdiv RND) % BUFHSZ).toNat

/-- Memory with arbitrary contents. -/
def memory (size : Nat) (contents : Nat → UInt8) : List UInt8 := (List.range size).map contents

namespace Buf

variable {P : Type} [DecidableEq P] (x : Buf P)

def take (h : Holder P) : Buf P := { x with holders := h :: x.holders }

def give (h : Holder P) : Buf P := { x with holders := x.holders.erase h }

def setFlags (f : Flags → Flags) : Buf P := { x with flags := f x.flags }

/-- `B_INVAL|B_ERROR|B_NOCACHE` -/
def junk : Bool := x.flags.inval || x.flags.error || x.flags.nocache

/-- The free list that `brelse` puts the buffer on. -/
def queue : BQ := if x.junk || (x.flags.age && !x.flags.cache) then .AGE else .LRU

/-- `brelse`, as far as the header goes. -/
def brelse : Buf P :=
  let flags := x.flags
  let y := x.setFlags ({ · with wanted := false })
  let y := if x.junk then { y with vp := none, flags := { inval := true } } else y
  let y := y.setFlags ({ · with cache := false, nocache := false, age := false })
  let y := if !x.junk && flags.age && !flags.cache then y.setFlags ({ · with age := true }) else y
  y.setFlags ({ · with busy := false })

/-- A header from the empty list, with its storage. -/
def constitute (sz : Nat) (contents : Nat → UInt8) : Buf P :=
  { x with flags := { busy := true, inval := true }, addr := some (memory sz contents), bufsize := sz }

/-- A buffer from the other lists. -/
def recycle : Buf P := { x with vp := none, flags := { inval := true, busy := true } }

/-- The label `fillin` of `getnewbuf`. -/
def fillin : Buf P := { x with vp := none, lblkno := 0, error := 0 }

/-- `allocbuf` -/
def allocbuf (size : Nat) (contents : Nat → UInt8) : Buf P :=
  let n := min x.bufsize size
  { x with addr := some ((x.addr.getD []).take n ++ (memory size contents).drop n), bufsize := size }

/-- `VOP_STRATEGY` -/
def strategy : Buf P := { x with active := true, owed := if x.flags.read then x.owed else none }

/-- The flags for a read. -/
def startRead : Buf P :=
  x.setFlags ({ · with read := true, done := false, error := false, inval := false })

/-- The flags for a write. -/
def startWrite (async : Bool) : Buf P :=
  let wasdelayed := x.flags.delwri
  let y := x.setFlags ({ · with read := false, done := false, error := false, delwri := false, async := async })
  let y := if wasdelayed then y.setFlags ({ · with age := true }) else y
  y.setFlags ({ · with dirty := true })

/-- A new buffer for the block. -/
def assign (vp : Vnode) (blkno : Int) : Buf P := { x with vp := some vp, lblkno := blkno, flags := { busy := true } }

/-- `biodone` up to the release, with the error of the driver or what it has read. -/
def complete (err : Option Nat) (contents : Nat → UInt8) : Buf P :=
  let y := match err with
    | some e => { x.setFlags ({ · with error := true }) with error := e }
    | none => if x.flags.read then { x with addr := some (memory x.bufsize contents) } else x
  let y := if !y.flags.read && y.flags.dirty then y.setFlags ({ · with dirty := false }) else y
  { y with active := false }

end Buf

/-! ## Processes in calls -/

/-- What a process sleeps on. -/
inductive Chan (nbuf : Nat)
  | buf (b : Fin nbuf)
  | freelist
  deriving DecidableEq, Repr

/-- A call that looks for a buffer; `ahead` is the second half of `breada`. -/
inductive Call (nbuf : Nat)
  | getblk (vp : Vnode) (blkno : Int) (size : Nat)
  | bread (vp : Vnode) (blkno : Int) (size : Nat)
  | breada (vp : Vnode) (blkno : Int) (size : Nat) (rablkno : Int)
  | ahead (vp : Vnode) (rablkno : Int) (size : Nat) (bp : Fin nbuf) (needwait : Bool)
  | geteblk (size : Nat)
  deriving DecidableEq, Repr

def Call.size {nbuf : Nat} : Call nbuf → Nat
  | .getblk _ _ size | .bread _ _ size | .breada _ _ size _ | .ahead _ _ size _ _ | .geteblk size => size

/-- The block that the call looks for. -/
def Call.block {nbuf : Nat} : Call nbuf → Option (Vnode × Int)
  | .getblk vp blkno _ | .bread vp blkno _ | .breada vp blkno _ _ | .ahead vp blkno _ _ _ => some (vp, blkno)
  | .geteblk _ => none

/-- Where a process is: in its own code, at the head of the loop of a call, asleep there, in the
`malloc` of `allocbuf` for a buffer (a new one or one found in the cache), or in `biowait`, which
`bwrite` follows with `brelse`. -/
inductive Pc (nbuf : Nat)
  | user
  | run (c : Call nbuf)
  | sleep (chan : Chan nbuf) (c : Call nbuf)
  | alloc (b : Fin nbuf) (c : Call nbuf) (new : Bool)
  | biowait (b : Fin nbuf) (release : Bool)
  deriving DecidableEq, Repr

/-- `wakeup`, of one process. -/
def Pc.wakeup {nbuf : Nat} (chan : Chan nbuf) : Pc nbuf → Pc nbuf
  | .sleep ch c => if ch = chan then .run c else .sleep ch c
  | pc => pc

/-! ## The cache -/

/-- The cache and the processes in it; `wanted` is the flag of `bfreelist`. -/
structure Cache (P : Type) (nbuf : Nat) where
  buf : Fin nbuf → Buf P
  bfreelist : BQ → List (Fin nbuf)
  wanted : Bool
  bufhash : Nat → List (Fin nbuf)
  freebufspace : Int
  allocbufspace : Int
  pc : P → Pc nbuf

namespace Cache

variable {P : Type} [DecidableEq P] {nbuf : Nat} (s : Cache P nbuf)

def modify (b : Fin nbuf) (f : Buf P → Buf P) : Cache P nbuf := { s with buf := Function.update s.buf b (f (s.buf b)) }

def goto (p : P) (pc : Pc nbuf) : Cache P nbuf := { s with pc := Function.update s.pc p pc }

def wakeup (chan : Chan nbuf) : Cache P nbuf := { s with pc := fun p => (s.pc p).wakeup chan }

def bremfree (b : Fin nbuf) : Cache P nbuf := { s with bfreelist := fun q => (s.bfreelist q).filter (· ≠ b) }

def binsheadfree (b : Fin nbuf) (q : BQ) : Cache P nbuf :=
  { s with bfreelist := Function.update s.bfreelist q (b :: s.bfreelist q) }

def binstailfree (b : Fin nbuf) (q : BQ) : Cache P nbuf :=
  { s with bfreelist := Function.update s.bfreelist q (s.bfreelist q ++ [b]) }

def bremhash (b : Fin nbuf) : Cache P nbuf := { s with bufhash := fun i => (s.bufhash i).filter (· ≠ b) }

def binshash (b : Fin nbuf) (i : Nat) : Cache P nbuf :=
  { s with bufhash := Function.update s.bufhash i (b :: s.bufhash i) }

/-- `incore` -/
def incore (vp : Vnode) (blkno : Int) : Option (Fin nbuf) :=
  (s.bufhash (BUFHASH vp blkno)).find? fun b =>
    (s.buf b).lblkno == blkno && (s.buf b).vp == some vp && !(s.buf b).flags.inval

/-- `brelse`, by the holder `h`. -/
def brelse (h : Holder P) (b : Fin nbuf) : Cache P nbuf :=
  let x := s.buf b
  let s := if s.wanted then { s with wanted := false }.wakeup .freelist else s
  let s := if x.flags.wanted then s.wakeup (.buf b) else s
  let s := s.modify b fun x => x.brelse.give h
  if x.junk then s.binsheadfree b .AGE else s.binstailfree b x.queue

/-- `bawrite`, by the process `p`; the write of a buffer that has no vnode faults. -/
def bawrite (p : P) (b : Fin nbuf) : Except String (Cache P nbuf) :=
  if !(s.buf b).flags.busy then .error "bawrite: not busy"
  else if (s.buf b).flags.inval then .ok (s.brelse (.proc p) b)
  else if (s.buf b).vp = none then .error "reassignbuf: NULL"
  else .ok (s.modify b fun x => ((x.startWrite true).strategy.give (.proc p)).take .io)

/-- `bwrite`, up to its `biowait`. -/
def bwrite (p : P) (b : Fin nbuf) : Except String (Cache P nbuf) :=
  if (s.buf b).flags.inval then .ok ((s.brelse (.proc p) b).goto p .user)
  else if !(s.buf b).flags.busy then .error "bwrite: not busy"
  else if (s.buf b).vp = none then .error "reassignbuf: NULL"
  else .ok ((s.modify b fun x => (x.startWrite false).strategy).goto p (.biowait b true))

/-- `bdwrite` -/
def bdwrite (p : P) (b : Fin nbuf) : Except String (Cache P nbuf) :=
  if !(s.buf b).flags.busy then .error "bdwrite: not busy"
  else if (s.buf b).flags.inval then .ok (s.brelse (.proc p) b)
  else if (s.buf b).flags.tape then s.bwrite p b
  else
    let s := s.modify b fun x => x.setFlags ({ · with read := false, done := false })
    let s := if !(s.buf b).flags.delwri then s.modify b fun x => x.setFlags ({ · with dirty := true, delwri := true }) else s
    let s := s.modify b fun x => { x with owed := x.vp.map fun vp => (vp, x.lblkno, x.addr.getD []) }
    .ok (s.brelse (.proc p) b)

/-! ## Getting a buffer -/

/-- A header that can be given new storage; `rooms` says which `malloc` with `M_NOWAIT` succeeds. -/
def constituted (sz : Nat) (rooms : List Bool) : Option (Fin nbuf) :=
  if s.freebufspace > sz ∧ rooms.headD false then (s.bfreelist .EMPTY).head? else none

/-- One round of `getnewbuf`, from `start` to the next `goto start`. -/
def getnewbufRound (p : P) (sz : Nat) (contents : Nat → UInt8) (t : Cache P nbuf × List Bool) :
    (Cache P nbuf × List Bool) ⊕ Except String (Cache P nbuf × Option (Fin nbuf)) :=
  let s := t.1
  match s.constituted sz t.2 with
  | some b =>
    let s := { s with freebufspace := s.freebufspace - sz, allocbufspace := s.allocbufspace + sz }
    .inr (.ok (((s.bremfree b).bremhash b).modify b fun x => ((x.constitute sz contents).fillin.take (.proc p)), some b))
  | none =>
    match (s.bfreelist .AGE ++ s.bfreelist .LRU).head? with
    | none => .inr (.ok ({ s with wanted := true }, none))
    | some b =>
      let s := s.bremfree b
      if (s.buf b).flags.delwri then
        match (s.modify b fun x => (x.setFlags ({ · with busy := true })).take (.proc p)).bawrite p b with
        | .ok s => .inl (s, t.2.tail)
        | .error msg => .inr (.error msg)
      else .inr (.ok ((s.bremhash b).modify b fun x => x.recycle.fillin.take (.proc p), some b))

/-- `getnewbuf`, up to `allocbuf`; `none` is its return after a sleep. Each round takes a buffer off the
lists, so the loop ends (`getnewbuf_spec`). -/
def getnewbuf (p : P) (sz : Nat) (rooms : List Bool) (contents : Nat → UInt8) :
    Except String (Cache P nbuf × Option (Fin nbuf)) :=
  (loop (getnewbufRound p sz contents) (nbuf + 1) (s, rooms)).getD (.error "getnewbuf")

/-- `allocbuf`, after its `malloc`. -/
def allocbuf (b : Fin nbuf) (size : Nat) (contents : Nat → UInt8) : Cache P nbuf :=
  let d : Int := size - (s.buf b).bufsize
  { s with freebufspace := s.freebufspace - d, allocbufspace := s.allocbufspace + d }.modify b (·.allocbuf size contents)

/-- The read of a block that is not in the cache. -/
def needsRead (b : Fin nbuf) : Bool := !(s.buf b).flags.cache || (s.buf b).flags.inval

/-- `getblk` has returned `b` to the call. -/
def returned (p : P) (b : Fin nbuf) : Call nbuf → Cache P nbuf
  | .bread _ _ _ =>
    if s.needsRead b then (s.modify b (·.startRead.strategy)).goto p (.biowait b false) else s.goto p .user
  | .breada vp _ size rablkno =>
    if s.needsRead b then (s.modify b (·.startRead.strategy)).goto p (.run (.ahead vp rablkno size b true))
    else s.goto p (.run (.ahead vp rablkno size b false))
  | .getblk _ _ _ | .ahead _ _ _ _ _ | .geteblk _ => s.goto p .user

/-- The end of `breada`. -/
def aheadEnd (p : P) (bp : Fin nbuf) (needwait : Bool) : Cache P nbuf :=
  s.goto p (if needwait then .biowait bp false else .user)

/-- What the call does with the new buffer `b`. -/
def filled (p : P) (b : Fin nbuf) (c : Call nbuf) : Except String (Cache P nbuf) :=
  match c with
  | .geteblk _ => .ok (s.goto p .user)
  | .ahead vp blkno _ bp needwait =>
    if (s.buf b).vp ≠ none then .error "bgetvp: not free"
    else
      .ok (((s.modify b fun x => (((x.assign vp blkno).setFlags ({ · with read := true, async := true, age := true })).strategy.give
        (.proc p)).take .io).binshash b (BUFHASH vp blkno)).aheadEnd p bp needwait)
  | .getblk vp blkno _ | .bread vp blkno _ | .breada vp blkno _ _ =>
    if (s.buf b).vp ≠ none then .error "bgetvp: not free"
    else .ok (((s.modify b (·.assign vp blkno)).binshash b (BUFHASH vp blkno)).returned p b c)

/-- The block of the call is not in the cache. -/
def miss (p : P) (c : Call nbuf) (rooms : List Bool) (contents : Nat → UInt8) : Except String (Cache P nbuf) := do
  match ← s.getnewbuf p c.size rooms contents with
  | (s, none) => return s.goto p (.sleep .freelist c)
  | (s, some b) => if (s.buf b).bufsize ≠ c.size then return s.goto p (.alloc b c true) else s.filled p b c

/-- `getblk` has found the block in the buffer `b`. -/
def hit (p : P) (b : Fin nbuf) (c : Call nbuf) : Cache P nbuf :=
  if (s.buf b).flags.busy then
    (s.modify b (·.setFlags ({ · with age := false, wanted := true, cache := true }))).goto p (.sleep (.buf b) c)
  else
    let s := (s.bremfree b).modify b fun x => (x.setFlags ({ · with age := false, busy := true, cache := true })).take (.proc p)
    if (s.buf b).bufsize ≠ c.size then s.goto p (.alloc b c false) else s.returned p b c

/-- `breada` has found the block ahead in the buffer `rabp`. -/
def aheadHit (p : P) (rabp bp : Fin nbuf) (needwait : Bool) : Cache P nbuf :=
  let s :=
    if (s.buf rabp).flags.age then
      if !(s.buf rabp).flags.busy then
        ((s.bremfree rabp).modify rabp fun x => (x.setFlags ({ · with busy := true })).take (.proc p)).brelse (.proc p) rabp
      else s.modify rabp (·.setFlags ({ · with age := false }))
    else s
  s.aheadEnd p bp needwait

/-- One round of the loop of a call. -/
def run (p : P) (c : Call nbuf) (rooms : List Bool) (contents : Nat → UInt8) : Except String (Cache P nbuf) :=
  match c.block.bind fun k => s.incore k.1 k.2 with
  | none => s.miss p c rooms contents
  | some b =>
    match c with
    | .ahead _ _ _ bp needwait => .ok (s.aheadHit p b bp needwait)
    | c => .ok (s.hit p b c)

/-! ## The rest -/

/-- `biowait`; the process stays in it until the buffer is done. -/
def biowait (p : P) (b : Fin nbuf) (release : Bool) : Cache P nbuf :=
  if !(s.buf b).flags.done then s
  else
    let s :=
      if (s.buf b).flags.error || (s.buf b).error != 0 then
        let s := if !(s.buf b).flags.inval then (s.modify b (·.setFlags ({ · with inval := true }))).bremhash b else s
        if (s.buf b).error = 0 then s.modify b ({ · with error := 5 }) else s.modify b (·.setFlags ({ · with error := true }))
      else s
    let s := s.goto p .user
    if release then s.brelse (.proc p) b else s

/-- `biodone`, of a buffer that the driver has finished. -/
def biodone (b : Fin nbuf) (err : Option Nat) (contents : Nat → UInt8) : Cache P nbuf :=
  let s := s.modify b (·.complete err contents)
  let s := if (s.buf b).flags.async then s.brelse .io b else s
  (s.modify b (·.setFlags ({ · with async := false, done := true }))).wakeup (.buf b)

/-- A process goes on. -/
def resume (p : P) (rooms : List Bool) (contents : Nat → UInt8) : Except String (Cache P nbuf) :=
  match s.pc p with
  | .run c => s.run p c rooms contents
  | .alloc b c new =>
    let s := s.allocbuf b c.size contents
    if new then s.filled p b c else .ok (s.returned p b c)
  | .biowait b release => .ok (s.biowait p b release)
  | .user | .sleep _ _ => .ok s

end Cache

/-! ## Runs -/

/-- A call of a process, or its going on after a sleep; a holder marks its buffer invalid or stores into
it; the driver finishes. -/
inductive Op (P : Type) (nbuf : Nat)
  | call (p : P) (c : Call nbuf) (rooms : List Bool) (contents : Nat → UInt8)
  | resume (p : P) (rooms : List Bool) (contents : Nat → UInt8)
  | brelse (p : P) (b : Fin nbuf)
  | bwrite (p : P) (b : Fin nbuf)
  | bdwrite (p : P) (b : Fin nbuf)
  | bawrite (p : P) (b : Fin nbuf)
  | invalidate (p : P) (b : Fin nbuf)
  | store (p : P) (b : Fin nbuf) (contents : Nat → UInt8)
  | biodone (b : Fin nbuf) (err : Option Nat) (contents : Nat → UInt8)

variable {P : Type} [DecidableEq P] {nbuf : Nat}

/-- What the holder stores is what is owed from then on. -/
def Buf.store (x : Buf P) (contents : Nat → UInt8) : Buf P :=
  { x with
    addr := some (memory x.bufsize contents)
    owed := x.owed.map fun o => (o.1, o.2.1, memory x.bufsize contents) }

namespace Cache

variable (s : Cache P nbuf)

def step : Op P nbuf → Except String (Cache P nbuf)
  | .call p c rooms contents => s.run p c rooms contents
  | .resume p rooms contents => s.resume p rooms contents
  | .brelse p b => .ok (s.brelse (.proc p) b)
  | .bwrite p b => s.bwrite p b
  | .bdwrite p b => s.bdwrite p b
  | .bawrite p b => s.bawrite p b
  | .invalidate _ b => .ok (s.modify b fun x => { x.setFlags ({ · with inval := true }) with owed := none })
  | .store _ b contents => .ok (s.modify b (·.store contents))
  | .biodone b err contents => .ok (s.biodone b err contents)

/-- A call that a process makes. -/
def Entry : Call nbuf → Prop
  | .ahead _ _ _ _ _ => False
  | .getblk _ _ _ | .bread _ _ _ | .breada _ _ _ _ | .geteblk _ => True

/-- A process in its own code calls, and releases what it holds; the driver finishes what it has. -/
def Allowed : Op P nbuf → Prop
  | .call p c _ _ => s.pc p = .user ∧ Entry c
  | .resume p _ _ => ∀ chan c, s.pc p ≠ .sleep chan c
  | .brelse p b | .bwrite p b | .bdwrite p b | .bawrite p b | .invalidate p b | .store p b _ =>
    s.pc p = .user ∧ .proc p ∈ (s.buf b).holders
  | .biodone b _ _ => (s.buf b).active = true

end Cache

/-! ## What is claimed of a state -/

namespace Cache

variable (s : Cache P nbuf)

/-- A block has at most one valid buffer. -/
def Unique : Prop :=
  ∀ b b', (s.buf b).flags.inval = false → (s.buf b').flags.inval = false → (s.buf b).vp = (s.buf b').vp →
    (s.buf b).lblkno = (s.buf b').lblkno → b = b'

/-- A valid buffer of the block exists. -/
def Cached (k : Vnode × Int) : Prop :=
  ∃ b, (s.buf b).flags.inval = false ∧ (s.buf b).vp = some k.1 ∧ (s.buf b).lblkno = k.2

/-- `allocbuf` does not shrink a buffer that is still to be written, as its comment asks of the callers. -/
def Sized : Op P nbuf → Prop
  | .resume p _ _ =>
    match s.pc p with
    | .alloc b c false => (s.buf b).flags.delwri = true → (s.buf b).bufsize ≤ c.size
    | _ => True
  | _ => True

/-- The process hashes no new buffer for a block that has got one since the process found none. -/
def Alone : Op P nbuf → Prop
  | .resume p _ _ =>
    match s.pc p with
    | .alloc _ c true => ∀ k ∈ c.block, ¬s.Cached k
    | _ => True
  | _ => True

/-- One buffer a block, and one holder a busy buffer. -/
structure OneEach : Prop where
  unique : s.Unique
  holder : ∀ b, (s.buf b).flags.busy = true → ∃ h, (s.buf b).holders = [h] ∧ (h = .io → (s.buf b).active = true)

/-- The discipline of the lists, and the accounting. -/
structure Disciplined (space : Int) : Prop where
  nodup : ∀ q, (s.bfreelist q).Nodup
  busy : ∀ b, (s.buf b).flags.busy = true → ∀ q, b ∉ s.bfreelist q
  free : ∀ b, (s.buf b).flags.busy = false → ∃ q, b ∈ s.bfreelist q ∧ ∀ q', b ∈ s.bfreelist q' → q' = q
  total : s.freebufspace + s.allocbufspace = space
  alloc : s.allocbufspace = ∑ b with (s.buf b).addr.isSome, ((s.buf b).bufsize : Int)

/-- What `bdwrite` was given is still in the buffer of its block, valid, hashed and marked for writing. -/
def Kept : Prop :=
  ∀ b vp n d, (s.buf b).owed = some (vp, n, d) →
    b ∈ s.bufhash (BUFHASH vp n) ∧ (s.buf b).flags.inval = false ∧ (s.buf b).vp = some vp ∧ (s.buf b).lblkno = n ∧
      (s.buf b).flags.delwri = true ∧ d <+: (s.buf b).addr.getD []

end Cache

/-- `bufinit`, with the space that the boot has set aside. -/
def Cache.bufinit (space : Int) : Cache P nbuf where
  buf := fun _ => ⟨{ inval := true }, none, 0, 0, none, 0, false, [], none⟩
  bfreelist
    | .EMPTY => List.finRange nbuf
    | .AGE | .LRU => []
  wanted := false
  bufhash := fun _ => []
  freebufspace := space
  allocbufspace := 0
  pc := fun _ => .user

def step (t : Except String (Cache P nbuf)) (op : Op P nbuf) : Except String (Cache P nbuf) := t.bind (·.step op)

def Allowed (t : Except String (Cache P nbuf)) (op : Op P nbuf) : Prop := ∀ s, t = .ok s → s.Allowed op

def Sized (t : Except String (Cache P nbuf)) (op : Op P nbuf) : Prop := ∀ s, t = .ok s → s.Sized op

def Alone (t : Except String (Cache P nbuf)) (op : Op P nbuf) : Prop := ∀ s, t = .ok s → s.Alone op

end BsdKernel.Bio
