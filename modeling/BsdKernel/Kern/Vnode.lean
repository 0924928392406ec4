import BsdKernel.Lib.Tailq
import BsdKernel.Lib.Trace
import Mathlib.Tactic
/-!
# The vnode free list

`getnewvnode`, `vget`, `vref`, `vrele`, `vput` and `vgone` of `kern/fs/vnode.c`. A vnode
whose use count drops to 0 goes to the end of a list linked through `v_freef` and
`v_freeb`; `vget` takes it off again, `getnewvnode` takes the first one, and `vgone`
moves one to the front.

The calls a file system makes from within `VOP_INACTIVE`, `VOP_CLOSE` and `VOP_RECLAIM`
are steps of their own: the list is not being changed at any of these calls.

`vfree_runs`: the list is the queue of the vnodes that have been released and not taken
since, and nothing panics or follows a null pointer, exactly in the runs that never
`vgone` the only vnode of the list and never give a vnode more references than its
16-bit count holds.
-/

namespace BsdKernel.Vnode

open BsdKernel.Lib

/-- What stops the kernel. -/
inductive Fault
  | panic (msg : String)
  | nullPointer
  deriving DecidableEq, Repr

/-- The vnodes and the list's head and tail pointers; `vxlock` is the flag `VXLOCK`,
and `vbad` says whether `v_type` is `VBAD`. -/
structure Vnodes (V : Type) where
  numvnodes : Nat
  vfreeh : Option V
  vfreet : Option (Cell V)
  freef : V → Option V
  freeb : V → Option (Cell V)
  usecount : V → BitVec 16
  writecount : V → BitVec 16
  vxlock : V → Bool
  vbad : V → Bool

/-- The kernel before the first vnode. -/
def Vnodes.boot (V : Type) : Vnodes V where
  numvnodes := 0
  vfreeh := none
  vfreet := none
  freef := fun _ => none
  freeb := fun _ => none
  usecount := fun _ => 0
  writecount := fun _ => 0
  vxlock := fun _ => false
  vbad := fun _ => false

variable {V : Type} [DecidableEq V]

namespace Vnodes

variable (s : Vnodes V)

/-- `*c = p` -/
def store : Option (Cell V) → Option V → Except Fault (Vnodes V)
  | none, _ => .error .nullPointer
  | some .head, p => .ok { s with vfreeh := p }
  | some (.next v), p => .ok { s with freef := Function.update s.freef v p }

/-- The lines that take `vp` out of the list, the same in `vget` and `vgone`. -/
def unlink (vp : V) : Except Fault (Vnodes V) :=
  let vq := s.freef vp
  let s := match vq with
    | some q => { s with freeb := Function.update s.freeb q (s.freeb vp) }
    | none => { s with vfreet := s.freeb vp }
  s.store (s.freeb vp) vq

/-- `v_freef` and `v_freeb` set to null. -/
def clear (vp : V) : Vnodes V :=
  { s with freef := Function.update s.freef vp none, freeb := Function.update s.freeb vp none }

/-- `VREF`, `vref` -/
def vref (vp : V) : Vnodes V := { s with usecount := Function.update s.usecount vp (s.usecount vp + 1) }

/-- `vget` -/
def vget (vp : V) : Except Fault (Vnodes V × Nat) := do
  if s.vxlock vp then return (s, 1)
  let s ← if s.usecount vp = 0 then (·.clear vp) <$> s.unlink vp else pure s
  return (s.vref vp, 0)

/-- The insertion of `vrele`, before the link of `vp` is made the last one. -/
def insertTail (vp : V) : Except Fault (Vnodes V) :=
  match s.vfreeh with
  | none => return { s with vfreeh := some vp, freeb := Function.update s.freeb vp (some .head) }
  | some _ => do
    let s ← s.store s.vfreet (some vp)
    return { s with freeb := Function.update s.freeb vp s.vfreet }

/-- `vrele` -/
def vrele (vp : V) : Except Fault (Vnodes V) := do
  let s := { s with usecount := Function.update s.usecount vp (s.usecount vp - 1) }
  if 0 < (s.usecount vp).toInt then return s
  if s.usecount vp ≠ 0 ∨ s.writecount vp ≠ 0 then throw (.panic "vrele: ref cnt")
  let s ← s.insertTail vp
  return { s with freef := Function.update s.freef vp none, vfreet := some (.next vp) }

/-- `vput`; the vnode's lock is not part of the list. -/
def vput (vp : V) : Except Fault (Vnodes V) := s.vrele vp

/-- `vclean` -/
def vclean (vp : V) : Except Fault (Vnodes V) := do
  let active := s.usecount vp ≠ 0
  let s := if active then s.vref vp else s
  if s.vxlock vp then throw (.panic "vclean: deadlock")
  let s := { s with vxlock := Function.update s.vxlock vp true }
  let s ← if active then s.vrele vp else pure s
  return { s with vxlock := Function.update s.vxlock vp false }

/-- The lines of `vgone` that move `vp` to the head of the list. -/
def moveToHead (vp : V) : Except Fault (Vnodes V) := do
  let s ← s.unlink vp
  let s := { s with
    freef := Function.update s.freef vp s.vfreeh
    freeb := Function.update s.freeb vp (some .head) }
  match s.vfreeh with
  | none => throw .nullPointer
  | some q => return { s with freeb := Function.update s.freeb q (some (.next vp)), vfreeh := some vp }

/-- `vgone` -/
def vgone (vp : V) : Except Fault (Vnodes V) := do
  if s.vxlock vp then return s
  let s ← s.vclean vp
  let s ← if (s.freeb vp).isSome then s.moveToHead vp else pure s
  return { s with vbad := Function.update s.vbad vp true }

/-- `malloc` and `memset` of a vnode. -/
def fresh (vp : V) : Vnodes V where
  numvnodes := s.numvnodes + 1
  vfreeh := s.vfreeh
  vfreet := s.vfreet
  freef := Function.update s.freef vp none
  freeb := Function.update s.freeb vp none
  usecount := Function.update s.usecount vp 0
  writecount := Function.update s.writecount vp 0
  vxlock := Function.update s.vxlock vp false
  vbad := Function.update s.vbad vp false

/-- The lines of `getnewvnode` that take the first vnode `vp` off the list. -/
def takeHead (vp : V) : Vnodes V :=
  let vq := s.freef vp
  let s := match vq with
    | some q => { s with freeb := Function.update s.freeb q (some .head) }
    | none => { s with vfreet := some .head }
  { s with vfreeh := vq }.clear vp

/-- `getnewvnode`, where `malloc` answers `new`; without a vnode it returns `ENFILE`. -/
def getnewvnode (desiredvnodes : Nat) (new : V) : Except Fault (Vnodes V × Option V) := do
  if s.numvnodes < desiredvnodes then return ((s.fresh new).vref new, some new)
  match s.vfreeh with
  | none => return (s, none)
  | some vp =>
    if s.usecount vp ≠ 0 then throw (.panic "free vnode isn't")
    let s := s.takeHead vp
    let s ← if s.vbad vp then pure s else s.vgone vp
    let s := { s with
      vxlock := Function.update s.vxlock vp false
      vbad := Function.update s.vbad vp false }
    return (s.vref vp, some vp)

end Vnodes

/-! ## Runs -/

/-- A call. `other` is what the file systems do to a vnode elsewhere: `v_type`, the writers'
count, and the flag `VXLOCK`, which `vgoneall` holds while it removes the aliases. -/
inductive Op (V : Type)
  | getnewvnode (new : V)
  | vget (vp : V)
  | vref (vp : V)
  | vrele (vp : V)
  | vput (vp : V)
  | vgone (vp : V)
  | other (vp : V) (vxlock vbad : Bool) (writecount : BitVec 16)

def Vnodes.step (desiredvnodes : Nat) (s : Vnodes V) : Op V → Except Fault (Vnodes V)
  | .getnewvnode new => do return (← s.getnewvnode desiredvnodes new).1
  | .vget vp => do return (← s.vget vp).1
  | .vref vp => return s.vref vp
  | .vrele vp => s.vrele vp
  | .vput vp => s.vput vp
  | .vgone vp => s.vgone vp
  | .other vp x b w => return { s with
      vxlock := Function.update s.vxlock vp x
      vbad := Function.update s.vbad vp b
      writecount := Function.update s.writecount vp w }

/-- The purpose of the list: the vnodes there are, how many references each has, and those
whose last reference is gone, in the order they are to be reused. `released` says whether
any vnode has ever been put on the list. -/
structure Table (V : Type) where
  vnodes : List V
  refs : V → Nat
  free : List V
  released : Bool
  locked : V → Bool
  writers : V → BitVec 16

def Table.boot (V : Type) : Table V where
  vnodes := []
  refs := fun _ => 0
  free := []
  released := false
  locked := fun _ => false
  writers := fun _ => 0

namespace Table

variable (a : Table V)

def setRefs (vp : V) (n : Nat) : Table V := { a with refs := Function.update a.refs vp n }

def release (vp : V) : Table V :=
  if a.refs vp = 1 then { a.setRefs vp 0 with free := a.free ++ [vp], released := true }
  else a.setRefs vp (a.refs vp - 1)

def step (desiredvnodes : Nat) : Op V → Table V
  | .getnewvnode new =>
    if a.vnodes.length < desiredvnodes then
      { a.setRefs new 1 with
        vnodes := new :: a.vnodes
        locked := Function.update a.locked new false
        writers := Function.update a.writers new 0 }
    else
      match a.free with
      | [] => a
      | vp :: l => { a.setRefs vp 1 with free := l, locked := Function.update a.locked vp false }
  | .vget vp => if a.locked vp then a else { a.setRefs vp (a.refs vp + 1) with free := a.free.erase vp }
  | .vref vp => a.setRefs vp (a.refs vp + 1)
  | .vrele vp | .vput vp => a.release vp
  | .vgone vp =>
    if a.locked vp then a
    else if vp ∈ a.free then { a with free := vp :: a.free.erase vp }
    else a
  | .other vp x _ w =>
    { a with locked := Function.update a.locked vp x, writers := Function.update a.writers vp w }

/-- What the callers promise: `malloc` returns memory that is not a vnode, the others name
a vnode there is, and who references or releases one has a reference; the last reference
goes after the writers have. -/
def Allowed : Op V → Prop
  | .getnewvnode new => new ∉ a.vnodes
  | .vget vp | .vgone vp | .other vp _ _ _ => vp ∈ a.vnodes
  | .vref vp => vp ∈ a.vnodes ∧ 0 < a.refs vp
  | .vrele vp | .vput vp => vp ∈ a.vnodes ∧ 0 < a.refs vp ∧ (a.refs vp = 1 → a.writers vp = 0)

/-- The steps the list survives: `vgone` of a vnode that is not alone on the list, and no
more references than a `short` can count down again. -/
def Safe : Op V → Prop
  | .vget vp => a.locked vp = false → a.refs vp < 2 ^ 16 - 1
  | .vref vp => a.refs vp < 2 ^ 16 - 1
  | .vrele vp | .vput vp => a.refs vp ≤ 2 ^ 15
  | .vgone vp => a.locked vp = false → a.free ≠ [vp] ∧ a.refs vp < 2 ^ 15
  | .getnewvnode _ | .other _ _ _ _ => True

instance : ∀ op, Decidable (a.Allowed op)
  | .getnewvnode new => inferInstanceAs (Decidable (new ∉ a.vnodes))
  | .vget vp | .vgone vp | .other vp _ _ _ => inferInstanceAs (Decidable (vp ∈ a.vnodes))
  | .vref vp => inferInstanceAs (Decidable (vp ∈ a.vnodes ∧ 0 < a.refs vp))
  | .vrele vp | .vput vp =>
    inferInstanceAs (Decidable (vp ∈ a.vnodes ∧ 0 < a.refs vp ∧ (a.refs vp = 1 → a.writers vp = 0)))

instance : ∀ op, Decidable (a.Safe op)
  | .vget vp => inferInstanceAs (Decidable (a.locked vp = false → a.refs vp < 2 ^ 16 - 1))
  | .vref vp => inferInstanceAs (Decidable (a.refs vp < 2 ^ 16 - 1))
  | .vrele vp | .vput vp => inferInstanceAs (Decidable (a.refs vp ≤ 2 ^ 15))
  | .vgone vp => inferInstanceAs (Decidable (a.locked vp = false → a.free ≠ [vp] ∧ a.refs vp < 2 ^ 15))
  | .getnewvnode _ | .other _ _ _ _ => inferInstanceAs (Decidable True)

end Table

/-- The list as the code keeps it. -/
def Vnodes.links (s : Vnodes V) : Links V := ⟨s.vfreeh, s.freef, s.freeb⟩

/-- The code's list is the table's: it is linked forwards and backwards without a cycle,
`vfreet` is its last link once a vnode has been released (it is null from boot until then),
and the vnodes on it are those that are not in use. -/
structure FreeList (s : Vnodes V) (a : Table V) : Prop where
  queue : Tailq s.links a.free
  tail : s.vfreet = if a.released then some (Cell.head.after a.free) else none
  known : ∀ v ∈ a.free, v ∈ a.vnodes
  unused : ∀ v ∈ a.vnodes, v ∈ a.free ↔ s.usecount v = 0

/-- A run of the code with its table, until the code stops. -/
structure Sys (V : Type) where
  code : Except Fault (Vnodes V)
  table : Table V

def Sys.boot (V : Type) : Sys V := ⟨.ok (Vnodes.boot V), Table.boot V⟩

def Sys.step (desiredvnodes : Nat) (t : Sys V) (op : Op V) : Sys V :=
  ⟨t.code.bind (Vnodes.step desiredvnodes · op), t.table.step desiredvnodes op⟩

end BsdKernel.Vnode
