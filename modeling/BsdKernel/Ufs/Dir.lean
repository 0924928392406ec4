import Mathlib.Data.List.Basic
import Mathlib.Logic.Function.Basic
import Mathlib.Tactic.Common
import Mathlib.Tactic
/-!
# UFS directories

The search of `ufs_lookup`, and `direnter`, `dirremove`, `dirrewrite` and `dirempty` of
`ufs/ufs_lookup.c`, on the bytes of a directory. `ufs_lookup` leaves the place of an
entry, or the space for a new one, and the others use it. Blocks are read and written
without errors, and the accesses are granted.
-/

namespace BsdKernel.UfsDir

/-! ## Bytes -/

def DIRBLKSIZ : Nat := 512
def MAXNAMLEN : Nat := 255

/-- The bytes of a directory, by offset. -/
abbrev Bytes := Nat → UInt8

def u16 (d : Bytes) (a : Nat) : Nat := (d a).toNat + 256 * (d (a + 1)).toNat

def u32 (d : Bytes) (a : Nat) : Nat := u16 d a + 65536 * u16 d (a + 2)

def le16 (n : Nat) : List UInt8 := [UInt8.ofNat n, UInt8.ofNat (n / 256)]

def le32 (n : Nat) : List UInt8 := le16 n ++ le16 (n / 65536)

/-- The bytes of `l` from `a` on. -/
def store (d : Bytes) (a : Nat) (l : List UInt8) : Bytes :=
  fun i => if a ≤ i ∧ i < a + l.length then l.getD (i - a) 0 else d i

/-- `memcpy`, which copies upwards: to a lower place it is right for an overlap too. -/
def memcpy (d : Bytes) (dst src n : Nat) : Bytes :=
  fun i => if dst ≤ i ∧ i < dst + n then d (src + (i - dst)) else d i

/-! ## `struct direct` -/

def dIno (d : Bytes) (ep : Nat) : Nat := u32 d ep

def dReclen (d : Bytes) (ep : Nat) : Nat := u16 d (ep + 4)

def dNamlen (d : Bytes) (ep : Nat) : Nat := u16 d (ep + 6)

/-- The first `n` bytes of `d_name`. -/
def dName (d : Bytes) (ep n : Nat) : List UInt8 := (List.range n).map fun i => d (ep + 8 + i)

/-- `DIRSIZ`, by the length of the name. -/
def DIRSIZ (namlen : Nat) : Nat := 8 + (namlen + 1 + 3) / 4 * 4

def setIno (d : Bytes) (ep ino : Nat) : Bytes := store d ep (le32 ino)

def setReclen (d : Bytes) (ep reclen : Nat) : Bytes := store d (ep + 4) (le16 reclen)

/-- `dirbadentry` -/
def dirbadentry (d : Bytes) (ep : Nat) : Bool :=
  dReclen d ep % 4 ≠ 0 || dReclen d ep > DIRBLKSIZ - ep % DIRBLKSIZ || dReclen d ep < DIRSIZ (dNamlen d ep) ||
    dNamlen d ep > MAXNAMLEN || (dName d ep (dNamlen d ep)).contains 0 || d (ep + 8 + dNamlen d ep) != 0

/-! ## `ufs_lookup` -/

/-- What the operations read besides the directory: `fs_bsize`, `fs_fsize` and `dirchk`. A fragment has a
directory block at least. -/
structure Fs where
  bsize : Nat
  fsize : Nat
  dirchk : Bool
  fsize_ok : DIRBLKSIZ ≤ fsize

/-- The directory: its bytes, `i_size` and `i_diroff`. -/
structure Dir where
  bytes : Bytes
  size : Nat
  diroff : Nat

inductive Flag where
  | LOOKUP | CREATE | DELETE | RENAME
  deriving DecidableEq, Repr

inductive SlotStatus where
  | NONE | COMPACT | FOUND
  deriving DecidableEq, Repr

/-- The variables of the search; `slotoffset` is `none` for -1. -/
structure Scan where
  slotstatus : SlotStatus
  slotoffset : Option Nat
  slotsize : Nat
  slotfreespace : Int
  prevoff : Nat
  enduseful : Nat
  deriving DecidableEq, Repr

/-- At the start of a block the search for space starts again. -/
def slotReset (off : Nat) (s : Scan) : Scan :=
  if s.slotstatus = .NONE ∧ off % DIRBLKSIZ = 0 then { s with slotoffset := none, slotfreespace := 0 } else s

/-- The search for space at the entry at `off`, which has `size` bytes left. -/
def slotCount (slotneeded off reclen : Nat) (size : Int) (s : Scan) : Scan :=
  if s.slotstatus ≠ .FOUND ∧ size > 0 then
    if size ≥ (slotneeded : Int) then { s with slotstatus := .FOUND, slotoffset := some off, slotsize := reclen }
    else if s.slotstatus = .NONE then
      let slotfreespace := s.slotfreespace + size
      let slotoffset := s.slotoffset.getD off
      if slotfreespace ≥ (slotneeded : Int) then
        { s with
          slotstatus := .COMPACT, slotfreespace := slotfreespace, slotoffset := some slotoffset,
          slotsize := off + reclen - slotoffset }
      else { s with slotfreespace := slotfreespace, slotoffset := some slotoffset }
    else s
  else s

def slotStep (slotneeded off reclen : Nat) (size : Int) (s : Scan) : Scan :=
  slotCount slotneeded off reclen size (slotReset off s)

/-- The end of a search: `panic("bad dir")`, or a match at `off`, or none. -/
inductive Search where
  | panic
  | found (s : Scan) (off : Nat)
  | notfound (s : Scan)
  deriving DecidableEq, Repr

/-- The search loop. The offset grows with every entry, so `endsearch - off` is enough for `fuel`. -/
def searchloop (fs : Fs) (d : Bytes) (name : List UInt8) (slotneeded endsearch : Nat) : Nat → Nat → Scan → Search
  | 0, _, s => .notfound s
  | fuel + 1, off, s =>
    if off < endsearch then
      if dReclen d off = 0 ∨ (fs.dirchk ∧ dirbadentry d off) then .panic
      else
        let size : Int := if dIno d off ≠ 0 then dReclen d off - DIRSIZ (dNamlen d off) else dReclen d off
        let s := slotStep slotneeded off (dReclen d off) size s
        if dIno d off ≠ 0 ∧ dNamlen d off = name.length ∧ dName d off (dNamlen d off) = name then .found s off
        else
          let next := off + dReclen d off
          let enduseful := if dIno d off ≠ 0 then next else s.enduseful
          searchloop fs d name slotneeded endsearch fuel next { s with prevoff := off, enduseful := enduseful }
    else .notfound s

def roundup (x y : Nat) : Nat := (x + (y - 1)) / y * y

/-- `ni_ufs`: where a new entry may be put. -/
structure Slot where
  offset : Nat
  count : Nat
  endoff : Nat
  deriving DecidableEq, Repr

/-- `ni_ufs`: an entry that was found. -/
structure Found where
  offset : Nat
  ino : Nat
  reclen : Nat
  count : Nat
  deriving DecidableEq, Repr

inductive Lookup where
  | panic
  | found (f : Found)
  | ENOENT (slot : Slot)
  deriving DecidableEq, Repr

/-- The search, in one pass or in two. -/
def searchDir (fs : Fs) (dir : Dir) (flag : Flag) (last : Bool) (name : List UInt8) : Search :=
  let wanted := (flag = .CREATE ∨ flag = .RENAME) ∧ last
  let s : Scan := ⟨if wanted then .NONE else .FOUND, none, 0, 0, 0, 0⟩
  let slotneeded := DIRSIZ name.length
  let endsearch := roundup dir.size DIRBLKSIZ
  if flag ≠ .LOOKUP ∨ dir.diroff = 0 ∨ dir.diroff > dir.size then
    searchloop fs dir.bytes name slotneeded endsearch endsearch 0 s
  else
    match searchloop fs dir.bytes name slotneeded endsearch endsearch dir.diroff s with
    | .notfound s => searchloop fs dir.bytes name slotneeded dir.diroff dir.diroff 0 s
    | r => r

/-- Where the new entry goes if nothing was found. -/
def newSlot (dir : Dir) (s : Scan) : Slot :=
  match s.slotstatus with
  | .NONE =>
    let offset := roundup dir.size DIRBLKSIZ
    ⟨offset, 0, roundup offset DIRBLKSIZ⟩
  | _ =>
    let offset := s.slotoffset.getD 0
    ⟨offset, s.slotsize, roundup (max s.enduseful (offset + s.slotsize)) DIRBLKSIZ⟩

/-- `ufs_lookup` from the search on, up to the entry that was found. -/
def ufsLookup (fs : Fs) (dir : Dir) (flag : Flag) (last : Bool) (name : List UInt8) : Dir × Lookup :=
  match searchDir fs dir flag last name with
  | .panic => (dir, .panic)
  | .notfound s => (dir, .ENOENT (newSlot dir s))
  | .found s off =>
    -- "i_size too small"
    if off % fs.bsize + DIRSIZ (dNamlen dir.bytes off) > dir.size then (dir, .panic)
    else
      let dir := if last ∧ flag = .LOOKUP then { dir with diroff := off / DIRBLKSIZ * DIRBLKSIZ } else dir
      let count := if off % DIRBLKSIZ = 0 then 0 else off - s.prevoff
      (dir, .found ⟨off, dIno dir.bytes off, dReclen dir.bytes off, count⟩)

/-! ## `direnter` -/

/-- `newdir`, as far as it is written; `pad` is what the stack has behind the name. -/
def newdir (ino reclen : Nat) (name : List UInt8) (pad : Nat → UInt8) : List UInt8 :=
  le32 ino ++ le16 reclen ++ le16 name.length ++ name ++ [0] ++
    (List.range (DIRSIZ name.length - (8 + name.length + 1))).map pad

/-- The loop that copies the entries together: the bytes, `ep`, `dsize` and `spacefree`. -/
def compact (base count : Nat) : Nat → Nat → Bytes → Nat → Nat → Int → Bytes × Nat × Nat × Int
  | 0, _, d, ep, dsize, spacefree => (d, ep, dsize, spacefree)
  | fuel + 1, loc, d, ep, dsize, spacefree =>
    if loc < count then
      let nep := base + loc
      let live := dIno d ep ≠ 0
      let d' := if live then setReclen d ep dsize else d
      let spacefree := if live then spacefree else spacefree + dsize
      let ep := if live then ep + dsize else ep
      let dsize := DIRSIZ (dNamlen d' nep)
      compact base count fuel (loc + dReclen d' nep) (memcpy d' ep nep dsize) ep dsize
        (spacefree + (dReclen d' nep - dsize))
    else (d, ep, dsize, spacefree)

inductive Panic where
  | badDir
  | newblk
  | blksize
  | compact1
  | compact2
  deriving DecidableEq, Repr

/-- `direnter` -/
def direnter (fs : Fs) (dir : Dir) (slot : Slot) (ino : Nat) (name : List UInt8) (pad : Nat → UInt8) : Except Panic Dir :=
  let newentrysize := DIRSIZ name.length
  if slot.count = 0 then
    if slot.offset % DIRBLKSIZ ≠ 0 then .error .newblk
    else if DIRBLKSIZ > fs.fsize then .error .blksize
    else .ok { dir with
      bytes := store dir.bytes slot.offset (newdir ino DIRBLKSIZ name pad)
      size := roundup (max dir.size (slot.offset + newentrysize)) DIRBLKSIZ }
  else
    let size := max dir.size (slot.offset + slot.count)
    let dsize := DIRSIZ (dNamlen dir.bytes slot.offset)
    let r := compact slot.offset slot.count slot.count (dReclen dir.bytes slot.offset) dir.bytes slot.offset dsize
      (dReclen dir.bytes slot.offset - dsize)
    let size' := if slot.endoff ≠ 0 ∧ slot.endoff < size then slot.endoff else size
    match r with
    | (d, ep, dsize, spacefree) =>
      if dIno d ep = 0 then
        -- `dsize` is unsigned, and so is the comparison
        if (spacefree + dsize) % 4294967296 < newentrysize then .error .compact1
        else .ok { dir with
          bytes := store d ep (newdir ino (spacefree + dsize).toNat name pad)
          size := size' }
      else if spacefree < newentrysize then .error .compact2
      else .ok { dir with
        bytes := store (setReclen d ep dsize) (ep + dsize) (newdir ino spacefree.toNat name pad)
        size := size' }

/-! ## The other operations -/

/-- `dirremove` -/
def dirremove (dir : Dir) (f : Found) : Dir :=
  if f.count = 0 then { dir with bytes := setIno dir.bytes f.offset 0 }
  else
    let ep := f.offset - f.count
    { dir with bytes := setReclen dir.bytes ep (dReclen dir.bytes ep + f.reclen) }

/-- `dirrewrite` -/
def dirrewrite (dir : Dir) (f : Found) (ino : Nat) : Dir :=
  { dir with bytes := setIno dir.bytes f.offset ino }

def MINDIRSIZ : Nat := 12

/-- The loop of `dirempty` from `off` on. -/
def emptyLoop (d : Bytes) (size parentino : Nat) : Nat → Nat → Bool
  | 0, _ => true
  | fuel + 1, off =>
    if off < size then
      if off + MINDIRSIZ > size then false
      else if dReclen d off = 0 then false
      else if dIno d off = 0 then emptyLoop d size parentino fuel (off + dReclen d off)
      else if dNamlen d off > 2 then false
      else if d (off + 8) ≠ 46 then false
      else if dNamlen d off = 1 then emptyLoop d size parentino fuel (off + dReclen d off)
      else if d (off + 9) = 46 ∧ dIno d off = parentino then emptyLoop d size parentino fuel (off + dReclen d off)
      else false
    else true

/-- `dirempty` -/
def dirempty (dir : Dir) (parentino : Nat) : Bool := emptyLoop dir.bytes dir.size parentino dir.size 0

end BsdKernel.UfsDir
