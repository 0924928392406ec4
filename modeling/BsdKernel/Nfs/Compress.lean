import BsdKernel.Lib.Loop
/-!
# Compression of NFS RPCs

`nfs_compress` and `nfs_uncompress` with the macros of `fs/nfs_compress.h`. An mbuf is its `m_len`
bytes, a chain the list of its mbufs. A read through a null pointer or behind the bytes of an mbuf has no
result, and neither has a loop that goes on for more rounds than there are bytes to read.
-/

namespace BsdKernel.NfsCompress

open Lib

def MCLBYTES : Nat := 1024
def MLEN : Nat := 108
def MHLEN : Nat := 100
def MINCLSIZE : Nat := MHLEN + MLEN
def NFSC_MAX : Nat := 17
def NFSCRL : UInt8 := 0xe0

/-- `NFSCRLE`, as the `int` it is. -/
def NFSCRLE (a : Nat) : UInt32 := 0xe0 ||| (UInt32.ofNat a - 2)

/-! ## Reading and writing chains -/

/-- The place of a read: the chain from `m` on, empty for a null pointer, where in `m` `ip` points and how much is left of it. -/
structure Reader where
  m : List (List UInt8)
  ip : Nat
  ileft : Nat

/-- The next byte, and whether there was one; `eof` is what is taken for it at the end of the chain. -/
def Reader.get (eof : UInt8) (r : Reader) : Option (UInt8 × Bool × Reader) :=
  if r.ileft = 0 then
    match r.m with
    | [] => none
    | _ :: rest =>
      match rest.dropWhile (·.isEmpty) with
      | [] => some (eof, false, ⟨[], r.ip, 0⟩)
      | m :: rest => m[0]?.map fun c => (c, true, ⟨m :: rest, 1, m.length - 1⟩)
  else (r.m.head?.bind (·[r.ip]?)).map fun c => (c, true, { r with ip := r.ip + 1, ileft := r.ileft - 1 })

/-- `nfscget` -/
def nfscget (r : Reader) : Option (UInt8 × Bool × Reader) := r.get 0

/-- The answers of the mbuf allocator: whether the `n`th `MCLGET` gets a cluster. -/
structure Alloc where
  clget : Bool
  cluster : Nat → Bool

/-- The space of the `n`th mbuf, which has `plain` bytes of its own. -/
def Alloc.space (al : Alloc) (n plain : Nat) : Nat := if al.clget && al.cluster n then MCLBYTES else plain

/-- The chain that is written: the mbufs before `om`, and `om`. -/
structure Writer where
  before : List (List UInt8)
  om : List UInt8
  oleft : Nat
  olen : Nat

/-- `nfscput` -/
def Writer.nfscput (al : Alloc) (w : Writer) (c : UInt8) : Writer :=
  if w.oleft = 0 then
    { before := w.before ++ [w.om], om := [c], oleft := al.space (w.before.length + 1) MLEN - 1, olen := w.olen + 1 }
  else { w with om := w.om ++ [c], oleft := w.oleft - 1, olen := w.olen + 1 }

/-- The loops that write `i` zeros. -/
def Writer.zeros (al : Alloc) (w : Writer) (i : Nat) : Writer := (List.replicate i 0).foldl (Writer.nfscput al) w

/-- What is returned: the chain passed, or a new one. -/
inductive Outcome (α : Type)
  | original
  | new (a : α)

/-! ## `nfs_compress` -/

/-- A chain and its `m_pkthdr.len`. -/
structure Packet where
  chain : List (List UInt8)
  len : Nat

structure Packing where
  nextch : UInt8
  i : Nat
  rlelast : Nat
  noteof : Bool
  input : Reader
  output : Writer

/-- What is written for `i` zeros before `nextch`, and the new `rlelast`. -/
def putZeros (al : Alloc) (i rlelast : Nat) (nextch : UInt8) (w : Writer) : Writer × Nat :=
  if i < 2 then (w.nfscput al 0, rlelast)
  else
    let (w, i) := if rlelast = i then (w.nfscput al 0, i - 1) else (w, i)
    if NFSCRLE i = nextch.toUInt32 then
      let i := i - 1
      let w := if i < 2 then w.nfscput al 0 else w.nfscput al (NFSCRLE i).toUInt8
      (w.nfscput al 0, 0)
    else (w.nfscput al (NFSCRLE i).toUInt8, i)

/-- The body of the loop. -/
def packStep (al : Alloc) (s : Packing) : Packing ⊕ Option Writer :=
  if s.noteof then
    let ch := s.nextch
    -- At the end `nextch` is 1, which ends a run of zeros.
    match s.input.get 1 with
    | none => .inr none
    | some (nextch, noteof, input) =>
      if ch = 0 then
        if s.i + 1 = NFSC_MAX ∨ nextch ≠ 0 then
          let (output, rlelast) := putZeros al (s.i + 1) s.rlelast nextch s.output
          .inl ⟨nextch, 0, rlelast, noteof, input, output⟩
        else .inl ⟨nextch, s.i + 1, s.rlelast, noteof, input, s.output⟩
      else
        let output := if ch &&& NFSCRL = NFSCRL then s.output.nfscput al ch else s.output
        .inl ⟨nextch, 0, 0, noteof, input, output.nfscput al ch⟩
  else .inr (some s.output)

def nfsCompress (cluster : Nat → Bool) (p : Packet) : Option (Outcome Packet) :=
  match p.chain with
  | [] => none
  | m :: _ =>
    if m.length < 12 then some .original
    else
      let al : Alloc := ⟨p.len ≥ MINCLSIZE, cluster⟩
      let output : Writer := ⟨[], m.take 4 ++ [m.getD 7 0 + 1], al.space 0 MHLEN - 5, 5⟩
      let input : Reader := ⟨p.chain, 9, m.length - 9⟩
      match loop (packStep al) (p.chain.flatten.length + 1) ⟨m.getD 8 0, 0, 0, true, input, output⟩ with
      | some (some w) =>
        if w.olen < p.len then
          let i := w.olen &&& 3
          let w := if i ≠ 0 then w.zeros al (4 - i) else w
          some (.new ⟨w.before ++ [w.om], w.olen⟩)
        else some .original
      | _ => none

/-! ## `nfs_uncompress` -/

/-- The loop that counts the bytes of the chain, up to `MINCLSIZE`. -/
def countBytes : Nat → List (List UInt8) → Nat
  | i, [] => i
  | i, m :: rest => if i < MINCLSIZE then countBytes (i + m.length) rest else i

/-- The first bytes: those written for them, the first byte of what follows, and the place behind it; the original is to be
returned where there is nothing. -/
def unpackHead (chain : List (List UInt8)) : Option (Option (List UInt8 × UInt8 × Reader)) :=
  match chain with
  | [] => none
  | m :: _ =>
    if m.length ≥ 6 then
      if m.getD 4 0 = 0 then some none
      else some (some (m.take 4 ++ [0, 0, 0, m.getD 4 0 - 1], m.getD 5 0, ⟨chain, 6, m.length - 6⟩))
    else do
      let (x0, _, r) ← nfscget ⟨chain, 0, m.length⟩
      let (x1, _, r) ← nfscget r
      let (x2, _, r) ← nfscget r
      let (x3, _, r) ← nfscget r
      let (x4, _, r) ← nfscget r
      if x4 = 0 then some none
      else do
        let (cp, _, r) ← nfscget r
        some (some ([x0, x1, x2, x3, 0, 0, 0, x4 - 1], cp, r))

structure Unpacking where
  cp : UInt8
  noteof : Bool
  input : Reader
  output : Writer

/-- `readit` -/
def readit (s : Unpacking) : Unpacking ⊕ Option Writer :=
  match nfscget s.input with
  | none => .inr none
  | some (cp, noteof, input) => .inl ⟨cp, s.noteof && noteof, input, s.output⟩

/-- The body of the loop. -/
def unpackStep (al : Alloc) (s : Unpacking) : Unpacking ⊕ Option Writer :=
  if s.noteof then
    if s.cp &&& NFSCRL = NFSCRL then
      match nfscget s.input with
      | none => .inr none
      | some (nextcp, noteof, input) =>
        if s.cp = nextcp then readit ⟨s.cp, noteof, input, s.output.nfscput al s.cp⟩
        else .inl ⟨nextcp, noteof, input, s.output.zeros al ((s.cp &&& 0xf).toNat + 2)⟩
    else readit { s with output := s.output.nfscput al s.cp }
  else .inr (some s.output)

/-- The new chain is returned with the bytes and the `m_len` of each mbuf. -/
def nfsUncompress (cluster : Nat → Bool) (chain : List (List UInt8)) : Option (Outcome (List (List UInt8 × Int))) :=
  let i := countBytes 0 chain
  if i < 6 then some .original
  else
    let al : Alloc := ⟨i ≥ MINCLSIZE, cluster⟩
    match unpackHead chain with
    | none => none
    | some none => some .original
    | some (some (header, cp, input)) =>
      match loop (unpackStep al) (chain.flatten.length + 1) ⟨cp, true, input, ⟨[], header, al.space 0 MLEN - 8, 8⟩⟩ with
      | some (some w) =>
        some (.new (w.before.map (fun m => (m, (m.length : Int))) ++ [(w.om, (w.om.length : Int) - ((w.olen &&& 3 : Nat) : Int))]))
      | _ => none

end BsdKernel.NfsCompress
