import Mathlib.Data.List.Basic
import Mathlib.Tactic
/-!
# Byte-range locks

The lock list of `ufs/ufs_lockf.c`: `lf_findoverlap`, `lf_getblock`, `lf_split`,
`lf_wakelock` and the list walks of `lf_setlock` and `lf_clearlock`.

The locks of an inode are a list, in the order of their `lf_next`. A pointer to a
link (`prev`) is the part of the list in front of it, and a pointer to a lock is
the list from that lock on. Each lock carries the requests that sleep on it
(`block`, its `lf_block` chain), and a walk gives the requests it wakes up.
Offsets are `off_t`, so that the end of a range plus one may wrap (`offT`).
-/

namespace BsdKernel.Advlock

inductive Typ
  | RDLCK | WRLCK | UNLCK
  deriving DecidableEq, Repr

/-- `struct lockf`. -/
structure Lockf where
  /-- Where it is in memory. -/
  addr : Nat
  /-- `F_POSIX`, `F_FLOCK` and `F_WAIT` of `lf_flags`. -/
  posix : Bool
  flock : Bool
  wait : Bool
  type : Typ
  start : Int
  /-- `lf_end`, where -1 is to infinity. -/
  last : Int
  id : Nat
  /-- The requests that sleep on it, the first to come first. -/
  block : List Nat
  deriving DecidableEq, Repr

/-- The largest `off_t`. -/
def OFF_MAX : Int := 2 ^ 63 - 1

/-- What is left of a sum in an `off_t`. -/
def offT (x : Int) : Int := x.bmod (2 ^ 64)

/-- `SELF` and `OTHERS`. -/
inductive Whose
  | self | others
  deriving DecidableEq, Repr

/-- The six cases of `lf_findoverlap`, in the order of their numbers. -/
inductive Overlap
  | no
  /-- `overlap == lock`. -/
  | equal
  /-- `overlap` contains `lock`. -/
  | contains
  /-- `lock` contains `overlap`. -/
  | contained
  /-- `overlap` starts before `lock`. -/
  | startsBefore
  /-- `overlap` ends after `lock`. -/
  | endsAfter
  deriving DecidableEq, Repr

/-- The tests of `lf_findoverlap`; `none` is its `panic`. -/
def overlapCase? (lf lock : Lockf) : Option Overlap :=
  if (lf.last ≠ -1 ∧ lock.start > lf.last) ∨ (lock.last ≠ -1 ∧ lf.start > lock.last) then some .no
  else if lf.start = lock.start ∧ lf.last = lock.last then some .equal
  else if lf.start ≤ lock.start ∧ lock.last ≠ -1 ∧ (lf.last ≥ lock.last ∨ lf.last = -1) then some .contains
  else if lock.start ≤ lf.start ∧ (lock.last = -1 ∨ (lf.last ≠ -1 ∧ lock.last ≥ lf.last)) then some .contained
  else if lf.start < lock.start ∧ (lf.last ≥ lock.start ∨ lf.last = -1) then some .startsBefore
  else if lf.start > lock.start ∧ lock.last ≠ -1 ∧ (lf.last > lock.last ∨ lf.last = -1) then some .endsAfter
  else none

/-- `lf_findoverlap` does not panic. -/
theorem overlapCase?_isSome (lf lock : Lockf) : (overlapCase? lf lock).isSome = true := by
  unfold overlapCase?
  split_ifs <;> first | rfl | (exfalso; omega)

def overlapCase (lf lock : Lockf) : Overlap := (overlapCase? lf lock).get (overlapCase?_isSome lf lock)

/-- `lf_findoverlap`: the case, the locks in front of `*prev`, and the list from
`*overlap` on. -/
def findoverlap (lock : Lockf) (whose : Whose) : List Lockf → Overlap × List Lockf × List Lockf
  | [] => (.no, [], [])
  | lf :: rest =>
    let next := findoverlap lock whose rest
    if (whose = .self ∧ lf.id ≠ lock.id) ∨ (whose = .others ∧ lf.id = lock.id) then (next.1, lf :: next.2.1, next.2.2)
    else
      match overlapCase lf lock with
      | .no =>
        if whose = .self ∧ lock.last ≠ -1 ∧ lf.start > lock.last then (.no, [], lf :: rest)
        else (next.1, lf :: next.2.1, next.2.2)
      | ovcase => (ovcase, [], lf :: rest)

/-- `lf_getblock`, with the turns its loop may make. -/
def getblockFrom (lock : Lockf) : Nat → List Lockf → Option Lockf
  | 0, _ => none
  | n + 1, lf =>
    match findoverlap lock .others lf with
    | (.no, _, _) => none
    | (_, _, []) => none
    | (_, _, overlap :: next) =>
      if lock.type = .WRLCK ∨ overlap.type = .WRLCK then some overlap else getblockFrom lock n next

def getblock (lock : Lockf) (l : List Lockf) : Option Lockf := getblockFrom lock (l.length + 1) l

/-- `lf_split`, where the starts differ: the first part of `lock1`, and the locks
between `lock2` and the old `lf_next` of `lock1`. `fresh` is what `MALLOC` returns. -/
def split (lock1 lock2 : Lockf) (fresh : Nat) : Lockf × List Lockf :=
  let front := { lock1 with last := offT (lock2.start - 1) }
  if lock1.last = lock2.last then (front, [])
  else (front, [{ lock1 with addr := fresh, start := offT (lock2.last + 1), block := [] }])

/-- What `lf_wakelock` leaves of the lock. -/
def Lockf.wake (lf : Lockf) : Lockf := { lf with block := [] }

/-- The list around the cursor of `lf_setlock`: before the lock, between the lock
and `*prev` once it is linked, and whether it is. -/
structure Cursor where
  front : List Lockf
  mid : List Lockf
  linked : Bool
  deriving DecidableEq, Repr

def Cursor.pass (c : Cursor) (before : List Lockf) : Cursor :=
  if c.linked then { c with mid := c.mid ++ before } else { c with front := c.front ++ before }

/-- The list, with the lock in it. -/
def Cursor.list (c : Cursor) (lock : Lockf) (rest : List Lockf) : List Lockf := c.front ++ lock :: (c.mid ++ rest)

/-- The loop of `lf_setlock` from `block` on, in at most so many turns: the list
and the requests woken up. `none` where a lock that is linked would be freed. -/
def setLoop (fresh : Nat) : Nat → Cursor → Lockf → List Nat → List Lockf → Option (List Lockf × List Nat)
  | 0, _, _, _, _ => none
  | n + 1, c, lock, woken, block =>
    match findoverlap lock .self block with
    | (.no, before, rest) => some ((c.pass before).list lock rest, woken)
    | (_, _, []) => none
    | (ovcase, before, overlap :: rest) =>
      let c := c.pass before
      let downgrade := lock.type = .RDLCK ∧ overlap.type = .WRLCK
      match ovcase with
      | .no => none
      | .equal =>
        if c.linked then none
        else if downgrade then some (c.front ++ { overlap.wake with type := lock.type } :: rest, woken ++ overlap.block)
        else some (c.front ++ { overlap with type := lock.type } :: rest, woken)
      | .contains =>
        if c.linked then none
        else if overlap.type = lock.type then some (c.front ++ overlap :: rest, woken)
        else if overlap.start = lock.start then
          some (c.list lock ({ overlap.wake with start := offT (lock.last + 1) } :: rest), woken ++ overlap.block)
        else
          let (overlap', tail) := split overlap lock fresh
          some (c.front ++ overlap'.wake :: lock :: (tail ++ rest), woken ++ overlap.block)
      | .contained =>
        -- a lock that is not downgraded takes the list of the one it replaces
        let (lock, woken) :=
          if downgrade then (lock, woken ++ overlap.block)
          else ({ lock with block := overlap.block ++ lock.block }, woken)
        setLoop fresh n { c with linked := true } lock woken rest
      | .startsBefore =>
        let overlap' := { overlap.wake with last := offT (lock.start - 1) }
        let c := if c.linked then { c with mid := [] } else ⟨c.front ++ [overlap'], [], true⟩
        setLoop fresh n c lock (woken ++ overlap.block) rest
      | .endsAfter =>
        some (c.list lock ({ overlap.wake with start := offT (lock.last + 1) } :: rest), woken ++ overlap.block)

/-- `lf_setlock` of a lock that nothing blocks. -/
def setlock (lock : Lockf) (fresh : Nat) (l : List Lockf) : Option (List Lockf × List Nat) :=
  setLoop fresh (l.length + 1) ⟨[], [], false⟩ lock [] l

/-- The loop of `lf_clearlock`, with the list in front of `*prev`. -/
def clearLoop (unlock : Lockf) (fresh : Nat) : Nat → List Lockf → List Nat → List Lockf → Option (List Lockf × List Nat)
  | 0, _, _, _ => none
  | n + 1, front, woken, lf =>
    match findoverlap unlock .self lf with
    | (.no, before, rest) => some (front ++ before ++ rest, woken)
    | (_, _, []) => none
    | (ovcase, before, overlap :: rest) =>
      let front := front ++ before
      let woken := woken ++ overlap.block
      match ovcase with
      | .no => none
      | .equal => some (front ++ rest, woken)
      | .contains =>
        if overlap.start = unlock.start then
          some (front ++ { overlap.wake with start := offT (unlock.last + 1) } :: rest, woken)
        else
          let (overlap', tail) := split overlap.wake unlock fresh
          some (front ++ overlap' :: (tail ++ rest), woken)
      | .contained => clearLoop unlock fresh n front woken rest
      | .startsBefore =>
        clearLoop unlock fresh n (front ++ [{ overlap.wake with last := offT (unlock.start - 1) }]) woken rest
      | .endsAfter => some (front ++ { overlap.wake with start := offT (unlock.last + 1) } :: rest, woken)

/-- `lf_clearlock`, with the `panic` of `LOCKF_DEBUG`. -/
def clearlock (unlock : Lockf) (fresh : Nat) (l : List Lockf) : Option (List Lockf × List Nat) :=
  if l = [] then some ([], [])
  else if unlock.type ≠ .UNLCK then none
  else clearLoop unlock fresh (l.length + 1) [] [] l

end BsdKernel.Advlock
