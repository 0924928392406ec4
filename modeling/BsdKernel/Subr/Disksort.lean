import Mathlib.Data.List.Basic
/-!
# The disk request queue

`disksort` of `kern/subr/disksort.c`. The activity chain from `b_actf` through
`av_forw` is a list of `buf`s; a position `ap` on it is a `Cursor`, and every
loop of the source is a function that moves the cursor. Two `buf`s are the same
when their addresses are.

The drivers take the head off with `dp->b_actf = bp->av_forw` (`wd.c`, `fd.c`,
`mcd.c`) and leave `b_actl` alone; that is `removeHead`.
-/

namespace BsdKernel.Disksort

/-- `B_ORDER` of `buf.h`: i/o operations in time sequence. -/
def B_ORDER : BitVec 32 := 0x080000#32

/-- The fields of `struct buf` that `disksort` reads, and the address of the
buf. `b_cylin` is `b_resid` as the driver set it. -/
structure Buf where
  addr : Nat
  bFlags : BitVec 32
  bCylin : Int
  bBlkno : Int
deriving DecidableEq, Repr

/-- `bp->b_flags & B_ORDER` -/
def Buf.ordered (b : Buf) : Bool := b.bFlags &&& B_ORDER != 0

/-- `bp->b_flags |= B_ORDER` -/
def Buf.setOrder (b : Buf) : Buf := { b with bFlags := b.bFlags ||| B_ORDER }

/-- The head `dp` of a queue: the chain from `b_actf`, and `b_actl`. -/
structure Queue where
  bActf : List Buf
  bActl : Option Nat
deriving DecidableEq, Repr

/-- The position `ap`: the requests ahead of it (nearest first), the request
there, and the chain from `ap->av_forw`. -/
structure Cursor where
  ahead : List Buf
  ap : Buf
  avForw : List Buf
deriving DecidableEq, Repr

/-- The chain a cursor stands on. -/
def Cursor.chain (c : Cursor) : List Buf := c.ahead.reverse ++ c.ap :: c.avForw

/-- `for (; ap->av_forw && (ap->b_flags & B_ORDER); ap = ap->av_forw)` -/
def skipOrdered (ahead : List Buf) (ap : Buf) : List Buf → Cursor
  | [] => ⟨ahead, ap, []⟩
  | n :: rest => if ap.ordered then skipOrdered (ap :: ahead) n rest else ⟨ahead, ap, n :: rest⟩

/-- `for (; ap->av_forw; ap = ap->av_forw) ap->b_flags |= B_ORDER` -/
def markOrdered (ahead : List Buf) (ap : Buf) : List Buf → Cursor
  | [] => ⟨ahead, ap, []⟩
  | n :: rest => markOrdered (ap.setOrder :: ahead) n rest

/-- `bp` goes before `next`: a smaller cylinder, or the same cylinder and a
smaller block number. -/
def goesBefore (bp next : Buf) : Bool :=
  bp.bCylin < next.bCylin || (bp.bCylin == next.bCylin && bp.bBlkno < next.bBlkno)

/-- The search of the second request list, from its last predecessor `ap`. -/
def searchSecond (bp : Buf) (ahead : List Buf) (ap : Buf) : List Buf → Cursor
  | [] => ⟨ahead, ap, []⟩
  | n :: rest => if goesBefore bp n then ⟨ahead, ap, n :: rest⟩ else searchSecond bp (ap :: ahead) n rest

/-- The search for an inversion, then of the second request list behind it. -/
def findInversion (bp : Buf) (ahead : List Buf) (ap : Buf) : List Buf → Cursor
  | [] => ⟨ahead, ap, []⟩
  | n :: rest =>
    if n.bCylin < ap.bCylin then searchSecond bp ahead ap (n :: rest)
    else findInversion bp (ap :: ahead) n rest

/-- The search of the first request list. -/
def searchFirst (bp : Buf) (ahead : List Buf) (ap : Buf) : List Buf → Cursor
  | [] => ⟨ahead, ap, []⟩
  | n :: rest =>
    if n.bCylin < ap.bCylin || goesBefore bp n then ⟨ahead, ap, n :: rest⟩
    else searchFirst bp (ap :: ahead) n rest

/-- The elevator's position for `bp`, from the cursor where the ordered prefix
ends. -/
def elevator (bp : Buf) (c : Cursor) : Cursor :=
  if bp.bCylin < c.ap.bCylin then findInversion bp c.ahead c.ap c.avForw
  else searchFirst bp c.ahead c.ap c.avForw

/-- The request `disksort` inserts `bp` after, with the flags it has set on the
way. -/
def position (bp : Buf) (ap : Buf) (rest : List Buf) : Cursor :=
  let c := if ap.ordered then skipOrdered [] ap rest else ⟨[], ap, rest⟩
  if c.ap.ordered then c
  else if bp.ordered then markOrdered c.ahead c.ap c.avForw
  else elevator bp c

/-- `insert:`, with the update of `b_actl`. -/
def insertAfter (dp : Queue) (bp : Buf) (c : Cursor) : Queue :=
  { bActf := c.ahead.reverse ++ c.ap :: bp :: c.avForw
    bActl := if dp.bActl = some c.ap.addr then some bp.addr else dp.bActl }

def disksort (dp : Queue) (bp : Buf) : Queue :=
  match dp.bActf with
  | [] => { bActf := [bp], bActl := some bp.addr }
  | ap :: rest => insertAfter dp bp (position bp ap rest)

/-- A driver's removal of the head request. -/
def removeHead (dp : Queue) : Queue := { dp with bActf := dp.bActf.tail }

/-! ## The flag -/

@[simp] theorem ordered_setOrder (b : Buf) : b.setOrder.ordered = true := by
  have h : ∀ x : BitVec 32, (x ||| B_ORDER) &&& B_ORDER = B_ORDER := fun x => by
    ext i
    simp only [BitVec.getElem_and, BitVec.getElem_or]
    cases B_ORDER[i] <;> simp
  simp only [Buf.ordered, Buf.setOrder, h]
  decide

@[simp] theorem addr_setOrder (b : Buf) : b.setOrder.addr = b.addr := rfl

/-! ## The cursor only moves

Each loop leaves the requests of the chain in their order; marking changes
flags only. -/

theorem chain_skipOrdered (ahead : List Buf) (ap : Buf) (rest : List Buf) :
    (skipOrdered ahead ap rest).chain = ahead.reverse ++ ap :: rest := by
  induction rest generalizing ahead ap with
  | nil => rfl
  | cons n rest ih =>
    rw [skipOrdered]
    split
    · rw [ih]; simp
    · rfl

theorem chain_searchSecond (bp : Buf) (ahead : List Buf) (ap : Buf) (rest : List Buf) :
    (searchSecond bp ahead ap rest).chain = ahead.reverse ++ ap :: rest := by
  induction rest generalizing ahead ap with
  | nil => rfl
  | cons n rest ih =>
    rw [searchSecond]
    split
    · rfl
    · rw [ih]; simp

theorem chain_findInversion (bp : Buf) (ahead : List Buf) (ap : Buf) (rest : List Buf) :
    (findInversion bp ahead ap rest).chain = ahead.reverse ++ ap :: rest := by
  induction rest generalizing ahead ap with
  | nil => rfl
  | cons n rest ih =>
    rw [findInversion]
    split
    · rw [chain_searchSecond]
    · rw [ih]; simp

theorem chain_searchFirst (bp : Buf) (ahead : List Buf) (ap : Buf) (rest : List Buf) :
    (searchFirst bp ahead ap rest).chain = ahead.reverse ++ ap :: rest := by
  induction rest generalizing ahead ap with
  | nil => rfl
  | cons n rest ih =>
    rw [searchFirst]
    split
    · rfl
    · rw [ih]; simp

theorem chain_elevator (bp : Buf) (c : Cursor) : (elevator bp c).chain = c.chain := by
  unfold elevator
  split
  · rw [chain_findInversion]; rfl
  · rw [chain_searchFirst]; rfl

theorem markOrdered_eq (ahead : List Buf) (ap : Buf) (rest : List Buf) :
    ∃ last, (ap :: rest).getLast? = some last ∧
      markOrdered ahead ap rest = ⟨((ap :: rest).dropLast.map Buf.setOrder).reverse ++ ahead, last, []⟩ := by
  induction rest generalizing ahead ap with
  | nil => exact ⟨ap, rfl, rfl⟩
  | cons n rest ih =>
    obtain ⟨last, hl, he⟩ := ih (ap.setOrder :: ahead) n
    refine ⟨last, by simpa using hl, ?_⟩
    rw [markOrdered, he]
    simp

end BsdKernel.Disksort
