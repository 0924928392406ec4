import Mathlib.Data.List.Basic
import Mathlib.Logic.Function.Basic
import Mathlib.Tactic
/-!
# VM objects and their collapse

`vm_object_collapse` of `kern/vm/vm_object.c`. Objects are named by numbers;
`objectList` is `vm_object_list`. Offsets and sizes have 32 bits. A page is its
offset, whether it is a placeholder (`PG_FAKE`), and its data, of any type. What a
pager holds is a parameter: the page at an offset of its space, if it has one.
-/

namespace BsdKernel.VmObject

abbrev Id := Nat

/-- Addition of `vm_offset_t`s. -/
def vmAdd (x y : Nat) : Nat := (x + y) % 2 ^ 32

structure Page (α : Type*) where
  offset : Nat
  fake : Bool
  data : α

/-- `struct vm_object`; `internal` is `OBJ_INTERNAL`. -/
structure Object (α : Type*) where
  memq : List (Page α)
  refCount : Nat
  size : Nat
  internal : Bool
  pagingInProgress : Nat
  copy : Option Id
  pager : Option Id
  pagingOffset : Nat
  shadow : Option Id
  shadowOffset : Nat

structure Vm (α : Type*) where
  objectList : List Id
  obj : Id → Object α

variable {α : Type*}

def Vm.set (vm : Vm α) (i : Id) (o : Object α) : Vm α := { vm with obj := Function.update vm.obj i o }

/-- `vm_page_lookup` -/
def vmPageLookup (memq : List (Page α)) (offset : Nat) : Option (Page α) := memq.find? (·.offset == offset)

/-! ## Collapsing -/

/-- The loop over the pages `ps` of the backing object; `memq` are those of the
parent. -/
def movePages (size backingOffset : Nat) : List (Page α) → List (Page α) → List (Page α)
  | [], memq => memq
  | p :: ps, memq =>
    let newOffset := p.offset - backingOffset
    if p.offset < backingOffset ∨ newOffset ≥ size then movePages size backingOffset ps memq
    else
      match vmPageLookup memq newOffset with
      | some pp =>
        if pp.fake = false then movePages size backingOffset ps memq
        else
          movePages size backingOffset ps
            (memq.eraseP (·.offset == newOffset) ++ [{ p with offset := newOffset }])
      | none => movePages size backingOffset ps (memq ++ [{ p with offset := newOffset }])

/-- The parent `o` after taking over everything of the backing object `b`. -/
def merge (o b : Object α) : Object α :=
  { o with
    memq := movePages o.size o.shadowOffset b.memq o.memq
    pager := if b.pager ≠ none then b.pager else o.pager
    pagingOffset := if b.pager ≠ none then vmAdd o.shadowOffset b.pagingOffset else o.pagingOffset
    shadow := b.shadow
    shadowOffset := vmAdd o.shadowOffset b.shadowOffset }

/-- Page `p` of the backing object is seen through the parent `o`. -/
def stillNeeded (o : Object α) (p : Page α) : Bool :=
  let newOffset := p.offset - o.shadowOffset
  decide (p.offset ≥ o.shadowOffset) && decide (newOffset < o.size) &&
    match vmPageLookup o.memq newOffset with
    | none => true
    | some pp => pp.fake

/-- `vm_object_reference` -/
def vmObjectReference (vm : Vm α) : Option Id → Vm α
  | none => vm
  | some i => vm.set i { vm.obj i with refCount := (vm.obj i).refCount + 1 }

/-- The object is there and has a copy-object. -/
def hasCopy (vm : Vm α) : Option Id → Bool
  | none => false
  | some i => (vm.obj i).copy ≠ none

/-- Make `object` shadow what `backing` shadows. -/
def bypass (vm : Vm α) (object backing : Id) : Vm α :=
  let o := vm.obj object
  let b := vm.obj backing
  let vm := vm.set object { o with shadow := b.shadow, shadowOffset := vmAdd o.shadowOffset b.shadowOffset }
  let vm := vmObjectReference vm b.shadow
  let b := vm.obj backing
  vm.set backing { b with copy := if b.copy = some object then none else b.copy, refCount := b.refCount - 1 }

/-- How a turn of the loop ends. -/
inductive Turn (α : Type*) where
  | ret
  | panic
  | again (vm : Vm α)

/-- One turn of `while (TRUE)`. -/
def collapseTurn (vm : Vm α) (object : Id) : Turn α :=
  let o := vm.obj object
  if o.pagingInProgress ≠ 0 ∨ o.pager ≠ none then .ret
  else
    match o.shadow with
    | none => .ret
    | some backing =>
      let b := vm.obj backing
      if b.internal = false ∨ b.pagingInProgress ≠ 0 then .ret
      else if hasCopy vm b.shadow then .ret
      else if b.refCount = 1 then
        let vm' : Vm α := { vm.set object (merge o b) with objectList := vm.objectList.erase backing }
        if hasCopy vm' b.shadow then .panic else .again vm'
      else if b.pager ≠ none then .ret
      else if b.memq.any (stillNeeded o) then .ret
      else .again (bypass vm object backing)

inductive Result (α : Type*) where
  | done (vm : Vm α)
  | panic
  | running (vm : Vm α)

/-- At most `n` turns. -/
def collapseLoop (object : Id) : Nat → Vm α → Result α
  | 0, vm => .running vm
  | n + 1, vm =>
    match collapseTurn vm object with
    | .ret => .done vm
    | .panic => .panic
    | .again vm' => collapseLoop object n vm'

/-- `vm_object_collapse` with at most `n` turns of its loop. -/
def vmObjectCollapse (vmObjectCollapseAllowed : Bool) (object : Option Id) (n : Nat) (vm : Vm α) : Result α :=
  if vmObjectCollapseAllowed = false then .done vm
  else
    match object with
    | none => .done vm
    | some object => collapseLoop object n vm

/-! ## What a process sees -/

/-- The data resident at `offset`; a placeholder has none. -/
def resident (memq : List (Page α)) (offset : Nat) : Option α :=
  (vmPageLookup memq offset).bind fun p => if p.fake then none else some p.data

/-- The pager's page for `offset`. -/
def Object.paged (pagers : Id → Nat → Option α) (o : Object α) (offset : Nat) : Option α :=
  o.pager.bind fun p => pagers p (vmAdd offset o.pagingOffset)

/-- The page of the object itself. -/
def Object.page (pagers : Id → Nat → Option α) (o : Object α) (offset : Nat) : Option α :=
  (resident o.memq offset).or (o.paged pagers offset)

/-- The page found from an object on down its shadows; `none` is past the end. -/
inductive Visible (pagers : Id → Nat → Option α) (vm : Vm α) : Option Id → Nat → Option α → Prop where
  | null (offset : Nat) : Visible pagers vm none offset none
  | here {i : Id} {offset : Nat} {d : α} (h : (vm.obj i).page pagers offset = some d) :
      Visible pagers vm (some i) offset (some d)
  | under {i : Id} {offset : Nat} {r : Option α} (h : (vm.obj i).page pagers offset = none)
      (hs : Visible pagers vm (vm.obj i).shadow (vmAdd offset (vm.obj i).shadowOffset) r) :
      Visible pagers vm (some i) offset r

/-- The number of shadow pointers to `i`. -/
def shadowRefs (vm : Vm α) (i : Id) : Nat := vm.objectList.countP fun j => (vm.obj j).shadow = some i

/-- Consistent links and counts; `ext` are the references from outside, `rank`
decreases along the shadows. -/
structure Consistent (ext rank : Id → Nat) (vm : Vm α) : Prop where
  nodup : vm.objectList.Nodup
  shadow : ∀ i ∈ vm.objectList, ∀ s, (vm.obj i).shadow = some s → s ∈ vm.objectList ∧ rank s < rank i
  /-- The window of a shadow object is inside its backing object. Only an external
  object at the end of a chain may be mapped past its size. -/
  window : ∀ i ∈ vm.objectList, ∀ s, (vm.obj i).shadow = some s → (vm.obj s).internal = true ∨ (vm.obj s).shadow ≠ none →
    (vm.obj i).shadowOffset + (vm.obj i).size ≤ (vm.obj s).size
  size : ∀ i ∈ vm.objectList, (vm.obj i).size < 2 ^ 32
  pages : ∀ i ∈ vm.objectList, ((vm.obj i).memq.map Page.offset).Nodup
  copy : ∀ i ∈ vm.objectList, ∀ c, (vm.obj i).copy = some c → c ∈ vm.objectList ∧ (vm.obj c).shadow = some i
  refs : ∀ i ∈ vm.objectList, (vm.obj i).refCount = shadowRefs vm i + ext i

end BsdKernel.VmObject
