import BsdKernel.Lib.Bytes
import Mathlib.Tactic
/-!
# Socket buffers

The `sb*` routines of `kern/uipc_socket2.c` on mbuf chains. A chain is the list
of its mbufs through `m_next` (`[]` is the null pointer), and the queue is the
list of its records through `m_nextpkt`, each record a chain. The data of an
mbuf is its `m_len` bytes from `m_data`. `sb_cc` and `sb_mbcnt` are integers
(they are `u_long`s, and all the mbufs of a kernel fit its address space). A
`panic` is `none`.
-/

namespace BsdKernel.Socket

open BsdKernel.Lib

def MSIZE : Nat := 128

/-- `MSIZE - sizeof (struct m_hdr)`. -/
def MLEN : Nat := MSIZE - 20

/-- The `MT_` constants. -/
inductive MType
  | free | data | header | socket | pcb | rtable | htable | atable | soname | soopts | ftable | rights | ifaddr
  | control | oobdata
  deriving DecidableEq, Repr

structure Mbuf where
  data : List Byte
  /-- `m_data - m_dat`, when the data is in the mbuf itself. -/
  off : Nat
  mtype : MType
  /-- `M_EOR`. -/
  eor : Bool
  /-- `ext_size`, if `M_EXT` is set. -/
  ext : Option Nat
  /-- `m_pkthdr.len`, if `M_PKTHDR` is set. -/
  pkthdr : Option Int
  deriving DecidableEq, Repr

/-- `m_len`. -/
def Mbuf.len (m : Mbuf) : Nat := m.data.length

/-- What an mbuf adds to `sb_mbcnt`. -/
def Mbuf.storage (m : Mbuf) : Nat := MSIZE + m.ext.getD 0

@[ext] structure Counters where
  cc : Int
  mbcnt : Int
  deriving DecidableEq, Repr

structure Sockbuf extends Counters where
  hiwat : Int
  mbmax : Int
  /-- `SB_LOCK`. -/
  locked : Bool
  /-- `sb_mb`. -/
  recs : List (List Mbuf)
  deriving DecidableEq, Repr

def sballoc (c : Counters) (m : Mbuf) : Counters := ⟨c.cc + m.len, c.mbcnt + m.storage⟩

def sbfree (c : Counters) (m : Mbuf) : Counters := ⟨c.cc - m.len, c.mbcnt - m.storage⟩

def sbspace (sb : Sockbuf) : Int := min (sb.hiwat - sb.cc) (sb.mbmax - sb.mbcnt)

/-- `sballoc` of every mbuf of a chain. -/
def sballocChain (c : Counters) (m : List Mbuf) : Counters := m.foldl sballoc c

/-- `sbfree` of every mbuf of a chain. -/
def sbfreeChain (c : Counters) (m : List Mbuf) : Counters := m.foldl sbfree c

/-! ## Compression -/

/-- The test of `sbcompress` under which `m` is freed: `o` is `m_next`, else
the mbuf `n` at the end of the record. -/
def discards (m : Mbuf) (next n : Option Mbuf) (eor : Bool) : Bool :=
  m.data.isEmpty && (!eor || (next.or n).any (·.mtype == m.mtype))

/-- The test under which the bytes of `m` are copied to the end of `n`. -/
def absorbs (n m : Mbuf) : Bool :=
  n.ext.isNone && !n.eor && decide (n.off + n.len + m.len < MLEN) && n.mtype == m.mtype

/-- `if (eor) n->m_flags |= eor`, on a record from its end. -/
def setEor (eor : Bool) : List Mbuf → List Mbuf
  | [] => []
  | n :: front => { n with eor := n.eor || eor } :: front

/-- The rest of the loop body of `sbcompress` for an `m` that is kept, on the
record from its last mbuf `n` back: its bytes go to `n`, or it is linked behind
`n`. -/
def place (c : Counters) (m : Mbuf) : List Mbuf → Counters × List Mbuf
  | [] => (sballoc c m, [{ m with eor := false }])
  | n :: front =>
    if absorbs n m then ({ c with cc := c.cc + m.len }, { n with data := n.data ++ m.data } :: front)
    else (sballoc c m, { m with eor := false } :: n :: front)

/-- The loop of `sbcompress`. `front` is the record from its last mbuf back to
its first. -/
def compressLoop (c : Counters) (front : List Mbuf) (eor : Bool) : List Mbuf → Counters × List Mbuf
  | [] => (c, (setEor eor front).reverse)
  | m :: ms =>
    if discards m ms.head? front.head? (eor || m.eor) then compressLoop c front (eor || m.eor) ms
    else compressLoop (place c m front).1 (place c m front).2 (eor || m.eor) ms

/-- `sbcompress` of `m` behind the chain `rec` whose last mbuf is `n`; the
chain is null if `n` is. -/
def sbcompress (c : Counters) (rec m : List Mbuf) : Counters × List Mbuf := compressLoop c rec.reverse false m

/-! ## Appending -/

/-- The end of `sbappendrecord` and `sbinsertoob`: `m0` starts a record and
passes `M_EOR` on to the rest of its chain, which is compressed behind it. -/
def startRecord (c : Counters) (m0 : Mbuf) : List Mbuf → Counters × List Mbuf
  | [] => sbcompress (sballoc c m0) [m0] []
  | m :: ms =>
    if m0.eor then sbcompress (sballoc c m0) [{ m0 with eor := false }] ({ m with eor := true } :: ms)
    else sbcompress (sballoc c m0) [m0] (m :: ms)

def sbappendrecord (sb : Sockbuf) : List Mbuf → Sockbuf
  | [] => sb
  | m0 :: m =>
    let (c, rec) := startRecord sb.toCounters m0 m
    { sb with toCounters := c, recs := sb.recs ++ [rec] }

/-- The queue that a chain starts; compression may leave nothing of it. -/
def queueOf : List Mbuf → List (List Mbuf)
  | [] => []
  | m :: ms => [m :: ms]

def sbappend (sb : Sockbuf) (m : List Mbuf) : Sockbuf :=
  if m = [] then sb
  else
    match sb.recs.getLast? with
    | none =>
      let (c, rec) := sbcompress sb.toCounters [] m
      { sb with toCounters := c, recs := queueOf rec }
    | some last =>
      if last.any (·.eor) then sbappendrecord sb m
      else
        let (c, rec) := sbcompress sb.toCounters last m
        { sb with toCounters := c, recs := sb.recs.dropLast ++ [rec] }

/-- The records `sbinsertoob` passes: those of out of band data, after any
control mbufs. -/
def passesOob : List Mbuf → Bool
  | [] => false
  | m :: ms =>
    match m.mtype with
    | .oobdata => true
    | .control => passesOob ms
    | _ => false

def sbinsertoob (sb : Sockbuf) : List Mbuf → Sockbuf
  | [] => sb
  | m0 :: m =>
    let (c, rec) := startRecord sb.toCounters m0 m
    { sb with toCounters := c, recs := sb.recs.takeWhile passesOob ++ rec :: sb.recs.dropWhile passesOob }

/-- The `m_len`s of a chain. -/
def chainLen (m : List Mbuf) : Nat := (m.map (·.len)).sum

/-- The record of `sbappendaddr` and `sbappendcontrol` goes on the queue as it is. -/
def enqueue (sb : Sockbuf) (rec : List Mbuf) : Sockbuf :=
  { sb with toCounters := sballocChain sb.toCounters rec, recs := sb.recs ++ [rec] }

/-- The mbuf of the address `asa`. -/
def sonameMbuf (asa : List Byte) : Mbuf := ⟨asa, 0, .soname, false, none, none⟩

/-- `sbappendaddr`, with what it returns; `mget` says whether `MGET` finds an
mbuf. -/
def sbappendaddr (sb : Sockbuf) (asa : List Byte) (m0 control : List Mbuf) (mget : Bool) : Option (Sockbuf × Bool) :=
  if m0.head?.any (·.pkthdr.isNone) then none
  else
    let space : Int := asa.length + (m0.head?.bind (·.pkthdr)).getD 0 + chainLen control
    if space > sbspace sb then some (sb, false)
    else if asa.length > MLEN then some (sb, false)
    else if mget then some (enqueue sb (sonameMbuf asa :: (control ++ m0)), true)
    else some (sb, false)

def sbappendcontrol (sb : Sockbuf) (m0 control : List Mbuf) : Option (Sockbuf × Bool) :=
  if control = [] then none
  else if (chainLen control + chainLen m0 : Int) > sbspace sb then some (sb, false)
  else some (enqueue sb (control ++ m0), true)

/-! ## Dropping -/

/-- The first loop of `sbdrop` inside one record: the bytes still to drop and
the mbufs from `m` on. -/
def dropMbufs (c : Counters) (len : Nat) : List Mbuf → Counters × Nat × List Mbuf
  | [] => (c, len, [])
  | m :: ms =>
    if len = 0 then (c, 0, m :: ms)
    else if m.len > len then
      ({ c with cc := c.cc - len }, 0, { m with data := m.data.drop len, off := m.off + len } :: ms)
    else dropMbufs (sbfree c m) (len - m.len) ms

/-- The first loop of `sbdrop`: `m` and the records from `next` on. -/
def dropLoop (c : Counters) (len : Nat) (m : List Mbuf) (next : List (List Mbuf)) :
    Option (Counters × List Mbuf × List (List Mbuf)) :=
  let (c, len, m) := dropMbufs c len m
  if len = 0 then some (c, m, next)
  else
    match next with
    | [] => none
    | rec :: next => dropLoop c len rec next

/-- The second loop of `sbdrop`: the empty mbufs at the front are freed. -/
def freeEmpty (c : Counters) : List Mbuf → Counters × List Mbuf
  | [] => (c, [])
  | m :: ms => if m.len = 0 then freeEmpty (sbfree c m) ms else (c, m :: ms)

def sbdrop (sb : Sockbuf) (len : Nat) : Option Sockbuf := do
  let (c, m, next) ← dropLoop sb.toCounters len (sb.recs.headD []) sb.recs.tail
  let (c, m) := freeEmpty c m
  return { sb with toCounters := c, recs := queueOf m ++ next }

def sbdroprecord (sb : Sockbuf) : Sockbuf :=
  match sb.recs with
  | [] => sb
  | rec :: next => { sb with toCounters := sbfreeChain sb.toCounters rec, recs := next }

/-- How `sbflush` can fail to return. -/
inductive Halt
  | panic | running
  deriving DecidableEq, Repr

/-- The loop of `sbflush`, for at most `fuel` rounds. -/
def flushLoop : Nat → Sockbuf → Except Halt Sockbuf
  | 0, _ => .error .running
  | fuel + 1, sb =>
    if sb.mbcnt = 0 then .ok sb
    else
      match sbdrop sb sb.cc.toNat with
      | none => .error .panic
      | some sb => flushLoop fuel sb

def sbflush (fuel : Nat) (sb : Sockbuf) : Except Halt Sockbuf :=
  if sb.locked then .error .panic
  else do
    let sb ← flushLoop fuel sb
    if sb.cc ≠ 0 ∨ sb.recs ≠ [] then .error .panic else .ok sb

end BsdKernel.Socket
