import BsdKernel.Lib.Command
import Mathlib.Order.Interval.Finset.Nat
/-!
# The block map of a UFS file

`bmap` and `balloc` of `ufs/ufs_bmap.c`, `alloc` and `realloccg` of `ufs/ufs_alloc.c` and
`itrunc` of `ufs/ufs_inode.c`, on the inode, its indirect blocks, the buffers of the file
and the disk. What the rest of the kernel answers during one call (which fragments are
free, whether a read succeeds) is an `Env`. The quota and the times of the inode, the
pager and the write of the inode itself are left out; so is `blkpref`, as a preference
does not bind the allocator. Sectors are counted without a bound, as a disk has less than
2^31 of them.
-/

namespace BsdKernel.UfsBmap

open BsdKernel.Lib

def NDADDR : Nat := 12
def NIADDR : Nat := 3

/-- The sizes of a file system: blocks of 4096 to 65536 bytes in 1, 2, 4 or 8 fragments. -/
structure Fs where
  bsize : Nat
  fsize : Nat
  fsbtodb : Nat
  bsize_pow : bsize = 2 ^ 12 ∨ bsize = 2 ^ 13 ∨ bsize = 2 ^ 14 ∨ bsize = 2 ^ 15 ∨ bsize = 2 ^ 16
  frags : bsize = fsize ∨ bsize = 2 * fsize ∨ bsize = 4 * fsize ∨ bsize = 8 * fsize

/-- Addresses in an indirect block, of four bytes each. -/
def Fs.NINDIR (fs : Fs) : Nat := fs.bsize / 4

def Fs.numfrags (fs : Fs) (size : Nat) : Nat := size / fs.fsize

def Fs.fragroundup (fs : Fs) (size : Nat) : Nat := (size + fs.fsize - 1) / fs.fsize * fs.fsize

/-- From fragments to sectors. -/
def Fs.toDb (fs : Fs) (b : Nat) : Int := b * 2 ^ fs.fsbtodb

def Fs.toFsb (fs : Fs) (b : Int) : Nat := (b / 2 ^ fs.fsbtodb).toNat

/-- The value that an `int` or a `daddr_t` takes. -/
def int32 (n : Int) : Int := Int.bmod n (2 ^ 32)

/-- Sectors of 512 bytes. -/
def btodb (bytes : Nat) : Nat := bytes / 512

/-! ## The state -/

/-- The bytes of a fragment. -/
abbrev Frag := Nat → UInt8

/-- A buffer of the file: `b_blkno`, and `b_bcount` bytes in fragments. -/
structure Buf where
  blkno : Int
  data : List Frag

/-- `i_size`, `i_blocks`, `i_db` and `i_ib`. -/
structure Inode where
  size : Nat
  blocks : Int
  db : Nat → Nat
  ib : Nat → Nat

/-- The inode; the addresses in the indirect blocks, by the address of the block; the cached buffers of the file,
by logical block; what the file wrote to the fragments of the disk; the fragments that the file was given and has not
freed; and the calls of `blkfree`, with the address and the size in bytes. -/
structure State where
  ip : Inode
  ptrs : Nat → Nat → Nat
  bufs : List (Nat × Buf)
  disk : Nat → Frag
  held : Finset Nat
  freed : List (Nat × Nat)

inductive Errno where
  | efbig | enospc | edquot | eio
  deriving DecidableEq, Repr

inductive Stop where
  | error (e : Errno)
  | panic (msg : String)
  deriving DecidableEq, Repr

/-- What the rest of the kernel answers during a call, by the fragments the file holds and what is asked for: whether
the reserve or the quota is exhausted, whether a piece can be extended in place, where `hashalloc` finds space,
whether `fs_optim` asks for whole blocks, which reads succeed, and what is in memory just allocated. A piece that is
handed out is free. -/
structure Env where
  nospace : Finset Nat → Nat → Bool
  overquota : Finset Nat → Nat → Bool
  fragextend : Finset Nat → Nat → Nat → Nat → Bool
  hashalloc : Finset Nat → Nat → Option Nat
  opttime : Bool
  devread : Nat → Bool
  vnread : Nat → Bool
  junk : Nat → Frag
  hashalloc_free : ∀ held n bno, hashalloc held n = some bno → bno ≠ 0 ∧ Disjoint (Finset.Ico bno (bno + n)) held
  fragextend_free : ∀ held bno o n, fragextend held bno o n = true → Disjoint (Finset.Ico (bno + o) (bno + n)) held

variable (fs : Fs) (env : Env)

/-! ## `bmap` -/

/-- The loop that finds the level of indirection: `j`, `sh` and `bn` at its end, or none if `j` gets to 0. -/
def level : Nat → Int → Int → Option (Nat × Int × Int)
  | 0, _, _ => none
  | j + 1, sh, bn =>
    let sh := int32 (sh * fs.NINDIR)
    if bn < sh then some (j + 1, sh, bn) else level j sh (int32 (bn - sh))

/-- The loop that fetches through `k` indirect blocks. -/
def bmapLevels (devread : Nat → Bool) (s : State) (bn : Int) : Nat → Int → Nat → Except Errno Int
  | 0, _, nb => .ok (fs.toDb nb)
  | k + 1, sh, nb =>
    if devread nb then
      let sh := sh / fs.NINDIR
      let i := ((bn / sh) % fs.NINDIR).toNat
      let nb := s.ptrs nb i
      if nb = 0 then .ok (-1) else bmapLevels devread s bn k sh nb
    else .error .eio

def bmap (devread : Nat → Bool) (s : State) (bn : Int) : Except Errno Int :=
  if bn < 0 then .error .efbig
  else if bn < NDADDR then
    let nb := s.ip.db bn.toNat
    if nb = 0 then .ok (-1) else .ok (fs.toDb nb)
  else
    match level fs NIADDR 1 (bn - NDADDR) with
    | none => .error .efbig
    | some (j, sh, bn) =>
      let nb := s.ip.ib (NIADDR - j)
      if nb = 0 then .ok (-1) else bmapLevels fs devread s bn (NIADDR + 1 - j) sh nb

/-! ## Buffers -/

def blksize (ip : Inode) (lbn : Nat) : Nat :=
  if lbn ≥ NDADDR ∨ ip.size ≥ (lbn + 1) * fs.bsize then fs.bsize else fs.fragroundup (ip.size % fs.bsize)

def incore (s : State) (lbn : Nat) : Option Buf := s.bufs.lookup lbn

def setBuf (lbn : Nat) (b : Buf) (s : State) : State :=
  { s with bufs := (lbn, b) :: s.bufs.filter (·.1 ≠ lbn) }

def zeros (n : Nat) : List Frag := List.replicate n fun _ => 0

/-- `allocbuf`: what does not fit is lost, and what is added is not cleared. -/
def allocbuf (b : Buf) (n : Nat) : Buf :=
  { b with data := b.data.take n ++ (List.range (n - b.data.length)).map env.junk }

/-- The `n` fragments of the disk from the sector `blkno` on. -/
def diskRead (s : State) (blkno : Int) (n : Nat) : List Frag :=
  (List.range n).map fun k => s.disk (fs.toFsb blkno + k)

/-- What `ufs_strategy` reads into a buffer of `n` fragments: a hole reads as zeros. -/
def strategy (s : State) (lbn n : Nat) : Buf :=
  match bmap fs (fun _ => true) s lbn with
  | .ok blkno => if blkno = -1 then ⟨-1, zeros n⟩ else ⟨blkno, diskRead fs s blkno n⟩
  | .error _ => ⟨lbn, zeros n⟩

def getblk (lbn n : Nat) : Cmd State Stop Buf := do
  let s ← Cmd.get
  let b := match incore s lbn with
    | some b => if b.data.length ≠ n then allocbuf env b n else b
    | none => ⟨lbn, (List.range n).map env.junk⟩
  Cmd.modify (setBuf lbn b)
  return b

def bread (lbn size : Nat) : Cmd State Stop Buf := do
  let s ← Cmd.get
  match incore s lbn with
  | some _ => getblk env lbn (fs.numfrags size)
  | none =>
    if env.vnread lbn then
      let b := strategy fs s lbn (fs.numfrags size)
      Cmd.modify (setBuf lbn b)
      return b
    else Cmd.fail (.error .eio)

/-- The disk after the buffer `b` is written; the buffer of a hole is not. -/
def writeBuf (disk : Nat → Frag) (b : Buf) : Nat → Frag :=
  if b.blkno = -1 then disk
  else fun a => if fs.toFsb b.blkno ≤ a ∧ a < fs.toFsb b.blkno + b.data.length then
      b.data.getD (a - fs.toFsb b.blkno) fun _ => 0
    else disk a

def bwrite (b : Buf) : Cmd State Stop Unit :=
  Cmd.modify fun s => { s with disk := writeBuf fs s.disk b }

/-! ## `alloc` and `realloccg` -/

/-- The fragments of a piece of `size` bytes. -/
def piece (bno size : Nat) : Finset Nat := Finset.Ico bno (bno + fs.numfrags size)

def blkfree (bno size : Nat) : Cmd State Stop Unit :=
  Cmd.modify fun s => { s with held := s.held \ piece fs bno size, freed := s.freed ++ [(bno, size)] }

/-- The fragments `new` become those of the file, and `i_blocks` grows by `size` bytes. -/
def take (new : Finset Nat) (size : Nat) (s : State) : State :=
  { s with ip := { s.ip with blocks := s.ip.blocks + btodb size }, held := s.held ∪ new }

def alloc (size : Nat) : Cmd State Stop Nat := do
  let s ← Cmd.get
  if size > fs.bsize ∨ size % fs.fsize ≠ 0 then Cmd.fail (.panic "alloc: bad size")
  else if env.nospace s.held size then Cmd.fail (.error .enospc)
  else if env.overquota s.held size then Cmd.fail (.error .edquot)
  else
    match env.hashalloc s.held (fs.numfrags size) with
    | none => Cmd.fail (.error .enospc)
    | some bno => do
      Cmd.modify (take (piece fs bno size) size)
      return bno

/-- The buffer after its piece has grown: `allocbuf`, and zeros from `osize` on. -/
def growBuf (b : Buf) (osize nsize : Nat) : Buf :=
  { b with data := (allocbuf env b (fs.numfrags nsize)).data.take (fs.numfrags osize) ++ zeros (fs.numfrags (nsize - osize)) }

def realloccg (lbprev osize nsize : Nat) : Cmd State Stop Buf := do
  let s ← Cmd.get
  if osize > fs.bsize ∨ osize % fs.fsize ≠ 0 ∨ nsize > fs.bsize ∨ nsize % fs.fsize ≠ 0 then
    Cmd.fail (.panic "realloccg: bad size")
  else if env.nospace s.held nsize then Cmd.fail (.error .enospc)
  else
    let bprev := s.ip.db lbprev
    if bprev = 0 then Cmd.fail (.panic "realloccg: bad bprev")
    else do
      let bp ← bread fs env lbprev osize
      if env.overquota s.held (nsize - osize) then Cmd.fail (.error .edquot)
      else if env.fragextend s.held bprev (fs.numfrags osize) (fs.numfrags nsize) then
        if bp.blkno ≠ fs.toDb bprev then Cmd.fail (.panic "bad blockno")
        else do
          let bp := growBuf fs env bp osize nsize
          Cmd.modify (take (piece fs (bprev + fs.numfrags osize) (nsize - osize)) (nsize - osize))
          Cmd.modify (setBuf lbprev bp)
          return bp
      else
        let request := if env.opttime then fs.bsize else nsize
        match env.hashalloc s.held (fs.numfrags request) with
        | none => Cmd.fail (.error .enospc)
        | some bno => do
          Cmd.modify (take (piece fs bno request) (nsize - osize))
          blkfree fs bprev osize
          (if nsize < request then blkfree fs (bno + fs.numfrags nsize) (request - nsize) else pure ())
          let bp := growBuf fs env { bp with blkno := fs.toDb bno } osize nsize
          Cmd.modify (setBuf lbprev bp)
          return bp

/-! ## `balloc` -/

def setDb (i a : Nat) (s : State) : State := { s with ip := { s.ip with db := Function.update s.ip.db i a } }

def setIb (i a : Nat) (s : State) : State := { s with ip := { s.ip with ib := Function.update s.ip.ib i a } }

def setSize (n : Nat) (s : State) : State := { s with ip := { s.ip with size := n } }

/-- Store `a` at the index `i` of the indirect block `nb`. -/
def setPtr (nb i a : Nat) (s : State) : State :=
  { s with ptrs := Function.update s.ptrs nb (Function.update (s.ptrs nb) i a) }

/-- `clrbuf` of the indirect block `nb`. -/
def clrPtrs (nb : Nat) (s : State) : State := { s with ptrs := Function.update s.ptrs nb fun _ => 0 }

/-- If the file ends in a fragment before `bn`, the fragment is made a full block. -/
def ballocFrag (bn : Int) : Cmd State Stop Unit := do
  let s ← Cmd.get
  let nb := int32 (s.ip.size / fs.bsize : Nat)
  let osize := blksize fs s.ip nb.toNat
  if nb < NDADDR ∧ nb < bn ∧ osize < fs.bsize ∧ osize > 0 then do
    let bp ← realloccg fs env nb.toNat osize fs.bsize
    Cmd.modify (setSize ((nb.toNat + 1) * fs.bsize))
    Cmd.modify (setDb nb.toNat (fs.toFsb bp.blkno))
    bwrite fs bp
  else pure ()

/-- The new buffer of a block that gets the address `nb`. -/
def newBuf (clrbuf : Bool) (lbn size nb : Nat) : Cmd State Stop Buf := do
  let bp ← getblk env lbn (fs.numfrags size)
  let bp : Buf := ⟨fs.toDb nb, if clrbuf then zeros (fs.numfrags size) else bp.data⟩
  Cmd.modify (setBuf lbn bp)
  return bp

def ballocDirect (bn size : Nat) (clrbuf : Bool) : Cmd State Stop Buf := do
  let s ← Cmd.get
  let nb := s.ip.db bn
  if nb ≠ 0 ∧ s.ip.size ≥ (bn + 1) * fs.bsize then bread fs env bn fs.bsize
  else do
    let bp ←
      if nb ≠ 0 then
        let osize := fs.fragroundup (s.ip.size % fs.bsize)
        let nsize := fs.fragroundup size
        if nsize ≤ osize then bread fs env bn osize else realloccg fs env bn osize nsize
      else do
        let nsize := if s.ip.size < (bn + 1) * fs.bsize then fs.fragroundup size else fs.bsize
        let newb ← alloc fs env nsize
        newBuf fs env clrbuf bn nsize newb
    Cmd.modify (setDb bn (fs.toFsb bp.blkno))
    return bp

/-- The data block whose address `nb` is at the index `i` of the indirect block `ind`. -/
def ballocData (lbn : Nat) (clrbuf : Bool) (ind i nb : Nat) : Cmd State Stop Buf :=
  if nb = 0 then do
    let newb ← alloc fs env fs.bsize
    let nbp ← newBuf fs env clrbuf lbn fs.bsize newb
    Cmd.modify (setPtr ind i newb)
    return nbp
  else if clrbuf then bread fs env lbn fs.bsize
  else newBuf fs env false lbn fs.bsize nb

/-- The loop that fetches through the indirect blocks, allocating as necessary; `k` is `NIADDR - j`. -/
def ballocLevels (lbn : Nat) (clrbuf : Bool) (bn : Int) : Nat → Int → Nat → Cmd State Stop Buf
  | k, sh, ind => do
    if env.devread ind then
      let s ← Cmd.get
      let sh := sh / fs.NINDIR
      let i := ((bn / sh) % fs.NINDIR).toNat
      let nb := s.ptrs ind i
      match k with
      | 0 => ballocData fs env lbn clrbuf ind i nb
      | k + 1 =>
        if nb ≠ 0 then ballocLevels lbn clrbuf bn k sh nb
        else do
          let newb ← alloc fs env fs.bsize
          Cmd.modify (clrPtrs newb)
          Cmd.modify (setPtr ind i newb)
          ballocLevels lbn clrbuf bn k sh newb
    else Cmd.fail (.error .eio)

/-- The indirect blocks, once the loop that finds the level of indirection has ended. -/
def ballocFrom (lbn : Nat) (clrbuf : Bool) : Option (Nat × Int × Int) → Cmd State Stop Buf
  | none => Cmd.fail (.error .efbig)
  | some (j, sh, bn) => do
    let s ← Cmd.get
    let nb := s.ip.ib (NIADDR - j)
    if nb = 0 then do
      let newb ← alloc fs env fs.bsize
      Cmd.modify (clrPtrs newb)
      Cmd.modify (setIb (NIADDR - j) newb)
      ballocLevels fs env lbn clrbuf bn (NIADDR - j) sh newb
    else ballocLevels fs env lbn clrbuf bn (NIADDR - j) sh nb

def ballocIndirect (lbn : Nat) (clrbuf : Bool) : Cmd State Stop Buf :=
  ballocFrom fs env lbn clrbuf (level fs NIADDR 1 (lbn - NDADDR))

/-- `balloc`; `clrbuf` is the flag `B_CLRBUF`. Whether a write is waited for, which `B_SYNC` says, makes no difference
here. -/
def balloc (bn : Int) (size : Nat) (clrbuf : Bool) : Cmd State Stop Buf :=
  if bn < 0 then Cmd.fail (.error .efbig)
  else do
    ballocFrag fs env bn
    if bn < NDADDR then ballocDirect fs env bn.toNat size clrbuf else ballocIndirect fs env bn.toNat clrbuf

/-! ## `itrunc` -/

/-- The last block that is kept, and counted from the start of each level of indirection; -1 for none. The sum is one of
an `u_long`. -/
def lastBlock (length : Nat) : Int := ((length + fs.bsize - 1) % 2 ^ 32 / fs.bsize : Nat) - 1

def lastIBlock (length : Nat) : Nat → Int
  | 0 => lastBlock fs length - NDADDR
  | 1 => lastBlock fs length - NDADDR - fs.NINDIR
  | _ => lastBlock fs length - NDADDR - fs.NINDIR - fs.NINDIR * fs.NINDIR

/-- The sectors that were released, and the last error. -/
structure Released where
  count : Nat
  error : Option Errno

def Released.add (r r' : Released) : Released := ⟨r.count + r'.count, r'.error.or r.error⟩

/-- A block that loses its place at `nb`, if there is one, is freed after `sub` of it. -/
def freeEntry (sub : Nat → Cmd State Stop Released) (nb : Nat) : Cmd State Stop Released :=
  if nb = 0 then pure ⟨0, none⟩
  else do
    let r ← sub nb
    blkfree fs nb fs.bsize
    return r.add ⟨btodb fs.bsize, none⟩

/-- `freeEntry` of the entries of the old contents `copy` at the indices `is`. -/
def freeEntries (sub : Nat → Cmd State Stop Released) (copy : Nat → Nat) : List Nat → Cmd State Stop Released
  | [] => return ⟨0, none⟩
  | i :: is => do
    let r ← freeEntry fs sub (copy i)
    let r' ← freeEntries sub copy is
    return r.add r'

/-- The indices behind `last`, from the end. -/
def behind (last : Int) : List Nat := ((List.range fs.NINDIR).filter fun i : Nat => last < (i : Int)).reverse

/-- The index of the last entry that is kept, of a block of the level `lvl`. -/
def lastIndex (lvl : Nat) (lastbn : Int) : Int := if lastbn > 0 then lastbn / fs.NINDIR ^ lvl else lastbn

/-- The entries of the indirect block `bn` behind `last` are cleared. -/
def cutPtrs (bn : Nat) (last : Int) (s : State) : State :=
  { s with ptrs := Function.update s.ptrs bn fun i => if (i : Int) ≤ last then s.ptrs bn i else 0 }

/-- `indirtrunc` at the given level; the entries are freed from the last one down. -/
def indirtrunc : Nat → Nat → Int → Cmd State Stop Released
  | lvl, bn, lastbn => do
    if env.devread bn then
      let s ← Cmd.get
      let last := lastIndex fs lvl lastbn
      let copy := s.ptrs bn
      Cmd.modify (cutPtrs bn last)
      match lvl with
      | 0 => freeEntries fs (fun _ => return ⟨0, none⟩) copy (behind fs last)
      | lvl + 1 => do
        let r ← freeEntries fs (fun nb => indirtrunc lvl nb (-1)) copy (behind fs last)
        let nb := copy last.toNat
        if lastbn ≥ 0 ∧ nb ≠ 0 then do
          let r' ← indirtrunc lvl nb (lastbn % fs.NINDIR ^ (lvl + 1))
          return r.add r'
        else return r
    else return ⟨0, some .eio⟩

/-- The indirect block `bn` of the level `l` of `tip`, which goes itself if nothing of it is kept. -/
def truncLevel (lastiblock : Int) (l : Nat) (tip : Inode) : Cmd State Stop (Inode × Released) :=
  let bn := tip.ib l
  if bn = 0 then pure (tip, ⟨0, none⟩)
  else do
    let r ← indirtrunc fs env l bn lastiblock
    if lastiblock < 0 then do
      blkfree fs bn fs.bsize
      return ({ tip with ib := Function.update tip.ib l 0 }, r.add ⟨btodb fs.bsize, none⟩)
    else return (tip, r)

/-- The indirect blocks of `tip`, from the level `l - 1` down. Whether all of them go, the addresses of `tip` then, and
what was released. -/
def truncIndirect (lastiblock : Nat → Int) : Nat → Inode → Cmd State Stop (Bool × Inode × Released)
  | 0, tip => return (true, tip, ⟨0, none⟩)
  | l + 1, tip => do
    let r ← truncLevel fs env (lastiblock l) l tip
    if lastiblock l ≥ 0 then return (false, r)
    else do
      let r' ← truncIndirect lastiblock l r.1
      return (r'.1, r'.2.1, r.2.add r'.2.2)

/-- The direct blocks of `tip` after `lastblock`, from `i - 1` down. -/
def truncDirect (lastblock : Int) : Nat → Inode → Cmd State Stop (Inode × Nat)
  | 0, tip => return (tip, 0)
  | i + 1, tip => do
    if lastblock < (i : Int) then
      let bn := tip.db i
      if bn = 0 then truncDirect lastblock i tip
      else do
        let tip := { tip with db := Function.update tip.db i 0 }
        let bsize := blksize fs tip i
        blkfree fs bn bsize
        let r ← truncDirect lastblock i tip
        return (r.1, btodb bsize + r.2)
    else return (tip, 0)

/-- The space that the last direct block gives back when the file gets the size `length`. -/
def truncLast (lastblock : Int) (length : Nat) (tip : Inode) : Cmd State Stop Nat :=
  let bn := tip.db lastblock.toNat
  if 0 ≤ lastblock ∧ bn ≠ 0 then do
    let oldspace := blksize fs tip lastblock.toNat
    let newspace := blksize fs { tip with size := length } lastblock.toNat
    if newspace = 0 then Cmd.fail (.panic "itrunc: newspace")
    else if oldspace > newspace then do
      blkfree fs (bn + fs.numfrags newspace) (oldspace - newspace)
      return btodb (oldspace - newspace)
    else return 0
  else return 0

/-- The direct blocks, if none of the indirect ones is kept. -/
def truncRest (length : Nat) (all : Bool) (tip : Inode) : Cmd State Stop (Inode × Nat) :=
  if all then do
    let r ← truncDirect fs (lastBlock fs length) NDADDR tip
    let n ← truncLast fs (lastBlock fs length) length r.1
    return (r.1, r.2 + n)
  else return (tip, 0)

/-- The bytes of `data` from `offset` on are cleared. -/
def clearFrom (offset : Nat) (data : List Frag) : List Frag :=
  data.mapIdx fun k f b => if k * fs.fsize + b < offset then f b else 0

/-- `vinvalbuf`: all buffers are dropped, and written before with `save`. -/
def vinvalbuf (save : Bool) (s : State) : State :=
  { s with
    disk := if save then s.bufs.foldl (fun disk b => writeBuf fs disk b.2) s.disk else s.disk
    bufs := [] }

/-- The addresses of the inode without what is truncated. -/
def Inode.cut (length : Nat) (ip : Inode) : Inode where
  size := length
  blocks := ip.blocks
  db := fun i => if i < NDADDR ∧ lastBlock fs length < i then 0 else ip.db i
  ib := fun l => if l < NIADDR ∧ lastIBlock fs length l < 0 then 0 else ip.ib l

/-- The size becomes `length`, and what follows it in its block is cleared. -/
def truncSize (length : Nat) : Cmd State Stop Unit :=
  let offset := length % fs.bsize
  if offset = 0 then Cmd.modify (setSize length)
  else do
    let lbn := length / fs.bsize
    let bp ← balloc fs env lbn offset true
    Cmd.modify (setSize length)
    let s ← Cmd.get
    let size := blksize fs s.ip lbn
    Cmd.modify (setBuf lbn { bp with data := (clearFrom fs offset bp.data).take (fs.numfrags size) })

/-- `i_blocks` falls by what was released, and not below 0. -/
def releaseBlocks (n : Nat) (s : State) : State := { s with ip := { s.ip with blocks := max 0 (s.ip.blocks - n) } }

/-- The inode from which the blocks are freed: `osize` is an `int`, and `i_size` of 64 bits. -/
def Inode.tip (ip : Inode) (size : Nat) : Inode := { ip with size := (int32 size % 2 ^ 64).toNat }

def itrunc (length : Nat) : Cmd State Stop Unit := do
  let s ← Cmd.get
  if s.ip.size ≤ length then pure ()
  else do
    truncSize fs env length
    let oip ← Cmd.get
    let tip := oip.ip.tip s.ip.size
    Cmd.modify fun s => vinvalbuf fs (length > 0) { s with ip := s.ip.cut fs length }
    let r ← truncIndirect fs env (fun l => max (-1) (lastIBlock fs length l)) NIADDR tip
    let r' ← truncRest fs length r.1 r.2.1
    let s ← Cmd.get
    if ∃ l < NIADDR, r'.1.ib l ≠ s.ip.ib l then Cmd.fail (.panic "itrunc1")
    else if ∃ i < NDADDR, r'.1.db i ≠ s.ip.db i then Cmd.fail (.panic "itrunc2")
    else do
      Cmd.modify (releaseBlocks (r.2.2.count + r'.2))
      match r.2.2.error with
      | none => pure ()
      | some e => Cmd.fail (.error e)

end BsdKernel.UfsBmap
