import BsdKernel.Vm.Object
/-!
# Address maps

The map operations of `kern/vm/vm_map.c`. A map is the list of its entries with the
summaries the code keeps beside it. An entry pointer is a `Ref`: the name of an entry,
or `none` for the header, whose `start` and `end` are `min_offset` and `max_offset`.
Names are never reused, so a name that is in no entry is a pointer to freed memory.

Sharing maps live in `Shares`. What the object, fault and physical-map layers answer is
taken from an `Env`; of `vm_fault_wire` that is the `vm_map_lookup` calls its faults
make and its result. Locks and time stamps are left out, and so is `vm_map_submap`,
the only routine that makes an entry refer to a submap.
-/

namespace BsdKernel.VmMap

open VmObject (vmAdd)

/-- `vm_inherit_t`, the values `vm_map_inherit` accepts. -/
inductive Inherit
  | share | copy | none
deriving DecidableEq, Repr

/-- `VM_INHERIT_DEFAULT` -/
def Inherit.default : Inherit := .copy

/-- `VM_PROT_WRITE` -/
def protWrite : Nat := 2

/-- `VM_PROT_DEFAULT` -/
def protDefault : Nat := 7

inductive Kern
  | success | invalidAddress | protectionFailure | noSpace | invalidArgument | failure
deriving DecidableEq, Repr

/-- `union vm_map_object`; `is_a_map` and `is_sub_map` say which member it is. -/
inductive MapObject
  | vmObject (o : Option Nat)
  | shareMap (s : Nat)
  | subMap (s : Nat)
deriving DecidableEq, Repr

/-- `struct vm_map_entry`; `id` is the address of the entry itself. -/
structure Entry where
  id : Nat
  start : Nat
  end_ : Nat
  object : MapObject
  offset : Nat
  copyOnWrite : Bool
  needsCopy : Bool
  protection : Nat
  maxProtection : Nat
  inheritance : Inherit
  wiredCount : Int
deriving DecidableEq, Repr

def Entry.isAMap (e : Entry) : Bool := match e.object with | .shareMap _ => true | _ => false

def Entry.isSubMap (e : Entry) : Bool := match e.object with | .subMap _ => true | _ => false

/-- The map an entry refers to, sharing map or submap. -/
def Entry.mapRef (e : Entry) : Option Nat :=
  match e.object with
  | .vmObject _ => .none
  | .shareMap s => some s
  | .subMap s => some s

/-- A pointer to an entry; `none` is `&map->header`. -/
abbrev Ref := Option Nat

/-- `struct vm_map`; `nextId` is the address the next `vm_map_entry_create` returns. -/
structure Map where
  entries : List Entry
  minOffset : Nat
  maxOffset : Nat
  nentries : Int
  size : Int
  isMainMap : Bool
  refCount : Nat
  hint : Ref
  firstFree : Ref
  nextId : Nat
deriving DecidableEq, Repr

/-- `vm_map_init` -/
def vmMapInit (min max : Nat) : Map where
  entries := []
  minOffset := min
  maxOffset := max
  nentries := 0
  size := 0
  isMainMap := true
  refCount := 1
  hint := none
  firstFree := none
  nextId := 0

/-- The answers of the layers below during one call. -/
structure Env where
  /-- What the memory of a new entry holds. -/
  garbage : Entry
  /-- `vm_object_coalesce(prev_object, NULL, prev_offset, 0, prev_size, next_size)` -/
  coalesce : Option Nat → Nat → Nat → Nat → Bool
  /-- The object `vm_object_shadow` puts in front. -/
  shadow : Option Nat → Nat → Nat → Nat
  /-- `vm_object_allocate` -/
  allocate : Nat → Nat
  /-- `vm_object_copy(src_object, src_offset, size, ..)`: the copy, its offset, `src_needs_copy`. -/
  copy : Option Nat → Nat → Nat → Option Nat × Nat × Bool
  /-- `vm_fault_wire`: the address and fault type of its lookups, and its result. -/
  faultWire : Nat → Nat → List (Nat × Nat) × Kern

/-! ## Pointers into the list -/

namespace Map

variable (m : Map)

/-- The entries before the one `r` points to, and the others. -/
def at_ : Ref → List Entry × List Entry
  | none => (m.entries, [])
  | some i => (m.entries.takeWhile (·.id != i), m.entries.dropWhile (·.id != i))

/-- The entries up to the one `r` points to, and those behind it. -/
def after : Ref → List Entry × List Entry
  | none => ([], m.entries)
  | some i => ((m.at_ (some i)).1 ++ (m.at_ (some i)).2.take 1, (m.at_ (some i)).2.drop 1)

def entry (r : Ref) : Option Entry := (m.at_ r).2.head?

/-- `r->start` -/
def start (r : Ref) : Nat := ((m.entry r).map (·.start)).getD m.minOffset

/-- `r->end` -/
def end_ (r : Ref) : Nat := ((m.entry r).map (·.end_)).getD m.maxOffset

end Map

/-- The pointer to the first entry of a list that runs to the header. -/
def firstRef (es : List Entry) : Ref := es.head?.map (·.id)

/-- The pointer to the last entry of a list that starts at the header. -/
def lastRef (es : List Entry) : Ref := es.getLast?.map (·.id)

namespace Map

variable (m : Map)

/-- `r->next` -/
def next (r : Ref) : Ref := firstRef (m.after r).2

/-- `r->prev` -/
def prev (r : Ref) : Ref := lastRef (m.at_ r).1

def modify (r : Ref) (f : Entry → Entry) : Map :=
  { m with entries := m.entries.map fun e => if r = some e.id then f e else e }

end Map

/-! ## Lookup -/

/-- The linear search from the first entry of the list up to `last`; `prev` is the
pointer behind the current one. -/
def search (address : Nat) (last : Ref) : Ref → List Entry → Bool × Ref
  | prev, [] => (false, prev)
  | prev, cur :: rest =>
    if last = some cur.id then (false, prev)
    else if cur.end_ > address then
      if address ≥ cur.start then (true, some cur.id) else (false, prev)
    else search address last (some cur.id) rest

def vmMapLookupEntry (m : Map) (address : Nat) : Bool × Ref × Map :=
  let cur := if m.hint = none then m.next none else m.hint
  if address ≥ m.start cur then
    if cur ≠ none ∧ m.end_ cur > address then (true, cur, m)
    else
      let (found, entry) := search address none (m.prev cur) (m.at_ cur).2
      (found, entry, { m with hint := entry })
  else
    let (found, entry) := search address (m.next cur) none m.entries
    (found, entry, { m with hint := entry })

/-! ## Finding space and inserting -/

/-- The loop of `vm_map_findspace`; the list are the entries behind `entry`. -/
def findspaceLoop (maxOffset length : Nat) : Nat → Ref → List Entry → Option (Nat × Ref)
  | start, entry, [] =>
    if vmAdd start length > maxOffset ∨ vmAdd start length < start then none else some (start, entry)
  | start, entry, next :: rest =>
    if vmAdd start length > maxOffset ∨ vmAdd start length < start then none
    else if next.start ≥ vmAdd start length then some (start, entry)
    else findspaceLoop maxOffset length next.end_ (some next.id) rest

/-- `vm_map_findspace`: the address found, if there is one. -/
def vmMapFindspace (m : Map) (start length : Nat) : Option Nat × Map :=
  let start := if start < m.minOffset then m.minOffset else start
  if start > m.maxOffset then (none, m)
  else
    let (start, entry, m) :=
      if start = m.minOffset then
        (if m.firstFree ≠ none then m.end_ m.firstFree else start, m.firstFree, m)
      else
        let (found, tmp, m) := vmMapLookupEntry m start
        (if found then m.end_ tmp else start, tmp, m)
    match findspaceLoop m.maxOffset length start entry (m.after entry).2 with
    | none => (none, m)
    | some (start, entry) => (some start, { m with hint := entry })

/-- `vm_map_insert` may extend the previous entry instead of making a new one. -/
def extends_ (env : Env) (m : Map) (object : Option Nat) (start end_ : Nat) (prev : Entry) : Bool :=
  object == none && prev.end_ == start && m.isMainMap && !prev.isAMap && !prev.isSubMap &&
    prev.inheritance == .default && prev.protection == protDefault && prev.maxProtection == protDefault &&
    prev.wiredCount == 0 &&
    match prev.object with
    | .vmObject o => env.coalesce o prev.offset (prev.end_ - prev.start) (end_ - prev.end_)
    | _ => false

/-- The entry `vm_map_insert` makes. -/
def newEntry (env : Env) (m : Map) (object : Option Nat) (offset start end_ : Nat) : Entry :=
  let e := { env.garbage with
    id := m.nextId, start, end_, object := .vmObject object, offset, copyOnWrite := false, needsCopy := false }
  if m.isMainMap then
    { e with inheritance := .default, protection := protDefault, maxProtection := protDefault, wiredCount := 0 }
  else e

def vmMapInsert (env : Env) (m : Map) (object : Option Nat) (offset start end_ : Nat) : Kern × Map :=
  if start < m.minOffset ∨ end_ > m.maxOffset ∨ start ≥ end_ then (.invalidAddress, m)
  else
    let (found, prev, m) := vmMapLookupEntry m start
    if found then (.noSpace, m)
    else
      let (before, rest) := m.after prev
      if rest.head?.any (·.start < end_) then (.noSpace, m)
      else
        match before.getLast?.filter (extends_ env m object start end_) with
        | some e =>
          (.success, { m with
            size := m.size + (end_ - e.end_)
            entries := before.dropLast ++ { e with end_ := end_ } :: rest })
        | none =>
          let new := newEntry env m object offset start end_
          (.success, { m with
            entries := before ++ new :: rest
            nentries := m.nentries + 1
            nextId := m.nextId + 1
            size := m.size + (end_ - start)
            firstFree := if m.firstFree = prev ∧ m.end_ prev ≥ start then some new.id else m.firstFree })

/-- `vm_map_find`; the address is returned as well. -/
def vmMapFind (env : Env) (m : Map) (object : Option Nat) (offset addr length : Nat) (findSpace : Bool) :
    Kern × Nat × Map :=
  if findSpace then
    match vmMapFindspace m addr length with
    | (none, m) => (.noSpace, addr, m)
    | (some start, m) =>
      let (result, m) := vmMapInsert env m object offset start (vmAdd start length)
      (result, start, m)
  else
    let (result, m) := vmMapInsert env m object offset addr (vmAdd addr length)
    (result, addr, m)

/-! ## Sharing maps -/

/-- The sharing maps in memory; `next` is the address of the next one. -/
structure Shares where
  get : Nat → Option Map
  next : Nat

namespace Shares

variable (sh : Shares)

def set (s : Nat) (m : Option Map) : Shares := { sh with get := Function.update sh.get s m }

/-- A new sharing map, with the address `sh.next`. -/
def create (m : Map) : Shares := { sh.set sh.next (some m) with next := sh.next + 1 }

/-- `vm_map_reference` -/
def reference (s : Nat) : Shares :=
  match sh.get s with
  | some m => sh.set s (some { m with refCount := m.refCount + 1 })
  | none => sh

/-- `vm_map_deallocate`. The map goes with its entries when the last reference does. -/
def deallocate (s : Nat) : Shares :=
  match sh.get s with
  | some m => if m.refCount - 1 > 0 then sh.set s (some { m with refCount := m.refCount - 1 }) else sh.set s none
  | none => sh

/-- A lookup in a sharing map, for its entry or only for its effect on the hint. -/
def lookupEntry (s address : Nat) : Shares :=
  match sh.get s with
  | some m => sh.set s (some (vmMapLookupEntry m address).2.2)
  | none => sh

end Shares

/-- A map with the sharing maps its entries refer to. -/
structure Space where
  map : Map
  shares : Shares

/-- The space once the entries of the map are `es`. -/
def Space.withEntries (w : Space) (es : List Entry) : Space := { w with map := { w.map with entries := es } }

/-! ## Clipping

The functions from here on work at a place in the list: they are given the entry
pointed to, or it and those behind it, and return what takes their place. The entries
field of the map is set when the walk is over. -/

/-- The part of an entry before `addr`. -/
def Entry.clipFront (e : Entry) (addr : Nat) : Entry := { e with end_ := addr }

/-- The part of an entry from `addr` on. -/
def Entry.clipBack (e : Entry) (addr : Nat) : Entry :=
  { e with start := addr, offset := vmAdd e.offset (addr - e.start) }

/-- The summaries after an entry has been linked. -/
def Map.linked (m : Map) : Map := { m with nentries := m.nentries + 1, nextId := m.nextId + 1 }

/-- The space after a copy of `e` has been linked. -/
def Space.cloned (w : Space) (e : Entry) : Space where
  map := w.map.linked
  shares := match e.mapRef with | some s => w.shares.reference s | none => w.shares

/-- `vm_map_clip_start`: the new entry before `e`, if any, and `e`. -/
def clipStart (w : Space) (e : Entry) (startaddr : Nat) : List Entry × Entry × Space :=
  if startaddr > e.start then
    ([{ e.clipFront startaddr with id := w.map.nextId }], e.clipBack startaddr, w.cloned e)
  else ([], e, w)

/-- `vm_map_clip_end`: `e`, and the new entry behind it, if any. -/
def clipEnd (w : Space) (e : Entry) (endaddr : Nat) : Entry × List Entry × Space :=
  if endaddr < e.end_ then
    (e.clipFront endaddr, [{ e.clipBack endaddr with id := w.map.nextId }], w.cloned e)
  else (e, [], w)

/-- `vm_map_clip_start` of the entry `r` points to. -/
def Space.clipStartAt (w : Space) (r : Ref) (startaddr : Nat) : Space :=
  match w.map.at_ r with
  | (before, e :: rest) =>
    let (front, e, w) := clipStart w e startaddr
    w.withEntries (before ++ front ++ e :: rest)
  | (_, []) => w

/-- `VM_MAP_RANGE_CHECK` -/
def rangeCheck (m : Map) (start end_ : Nat) : Nat × Nat :=
  let start := if start < m.minOffset then m.minOffset else start
  let end_ := if end_ > m.maxOffset then m.maxOffset else end_
  (if start > end_ then end_ else start, end_)

/-- The first entry at or behind `start`, clipped to begin there: the entries before
it, and the others. -/
def enter (w : Space) (start : Nat) : List Entry × List Entry × Space :=
  let (found, entry, map) := vmMapLookupEntry w.map start
  let w := { w with map }
  if found then
    let w := w.clipStartAt entry start
    ((w.map.at_ entry).1, (w.map.at_ entry).2, w)
  else ((w.map.after entry).1, (w.map.after entry).2, w)

/-- The loop `while (entry != &map->header && entry->start < end)` that clips each entry
to `end_`, puts what `body` makes of it in its place and goes on to the next. -/
def sweep (end_ : Nat) (body : Entry → Space → List Entry × Space) : List Entry → Space → List Entry × Space
  | [], w => ([], w)
  | e :: rest, w =>
    if e.start < end_ then
      match clipEnd w e end_ with
      | (e, [], w) =>
        let (es, w) := body e w
        let (rest, w) := sweep end_ body rest w
        (es ++ rest, w)
      | (e, behind, w) =>
        -- The piece behind starts at `end_`, which ends the loop.
        let (es, w) := body e w
        (es ++ behind ++ rest, w)
    else (e :: rest, w)

/-! ## Protection and inheritance -/

/-- The first pass of `vm_map_protect`. -/
def protectCheck (end_ newProt : Nat) : List Entry → Kern
  | [] => .success
  | current :: rest =>
    if current.start < end_ then
      if current.isSubMap then .invalidArgument
      else if newProt &&& current.maxProtection ≠ newProt then .protectionFailure
      else protectCheck end_ newProt rest
    else .success

/-- The second pass; changing the physical map looks into a sharing map. -/
def protectEntry (newProt : Nat) (setMax : Bool) (current : Entry) (w : Space) : List Entry × Space :=
  let new :=
    if setMax then { current with maxProtection := newProt, protection := newProt &&& current.protection }
    else { current with protection := newProt }
  ([new],
    match new.object with
    | .shareMap s =>
      if new.protection ≠ current.protection then { w with shares := w.shares.lookupEntry s new.offset } else w
    | _ => w)

def vmMapProtect (w : Space) (start end_ newProt : Nat) (setMax : Bool) : Kern × Space :=
  let (start, end_) := rangeCheck w.map start end_
  let (before, rest, w) := enter w start
  match protectCheck end_ newProt rest with
  | .success =>
    let (rest, w) := sweep end_ (protectEntry newProt setMax) rest w
    (.success, w.withEntries (before ++ rest))
  | err => (err, w)

/-- The `switch` of `vm_map_inherit`. -/
def inheritOf : Nat → Option Inherit
  | 0 => some .share
  | 1 => some .copy
  | 2 => some .none
  | _ => none

def vmMapInherit (w : Space) (start end_ newInheritance : Nat) : Kern × Space :=
  match inheritOf newInheritance with
  | none => (.invalidArgument, w)
  | some inheritance =>
    let (start, end_) := rangeCheck w.map start end_
    let (before, rest, w) := enter w start
    let (rest, w) := sweep end_ (fun e w => ([{ e with inheritance }], w)) rest w
    (.success, w.withEntries (before ++ rest))

/-! ## Wiring -/

/-- The object a fault of type `faultType` needs is made in the entry: a shadow for a
copy-on-write entry that is written, an empty object where there is none. -/
def Entry.resolve (env : Env) (faultType : Nat) (e : Entry) : Entry :=
  match e.object with
  | .vmObject o =>
    if e.needsCopy ∧ faultType &&& protWrite ≠ 0 then
      { e with object := .vmObject (some (env.shadow o e.offset (e.end_ - e.start))), offset := 0, needsCopy := false }
    else if o = none then { e with object := .vmObject (some (env.allocate (e.end_ - e.start))), offset := 0 }
    else e
  | _ => e

/-- `vm_map_lookup`, for its effect on the maps. -/
def vmMapLookup (env : Env) (w : Space) (fault : Nat × Nat) : Space :=
  let (vaddr, faultType) := fault
  let hinted := (w.map.entry w.map.hint).any fun e => e.start ≤ vaddr && vaddr < e.end_
  let (found, entry, map) := if hinted then (true, w.map.hint, w.map) else vmMapLookupEntry w.map vaddr
  let w := { w with map }
  match (if found then map.entry entry else none) with
  | none => w
  | some e =>
    if e.isSubMap ∨ faultType &&& e.protection ≠ faultType then w
    else
      let faultType := if e.wiredCount ≠ 0 then e.protection else faultType
      match e.object with
      | .shareMap s =>
        match w.shares.get s with
        | none => w
        | some share =>
          let (found, shareEntry, share) := vmMapLookupEntry share (vmAdd (vaddr - e.start) e.offset)
          let share := if found then share.modify shareEntry (·.resolve env faultType) else share
          { w with shares := w.shares.set s (some share) }
      | _ => { w with map := map.modify entry (·.resolve env faultType) }

/-- The first loop of unwiring: the range is wired and has no holes. -/
def unwireCheck (end_ : Nat) : List Entry → Bool
  | [] => true
  | e :: rest =>
    if e.start < end_ then
      if e.wiredCount = 0 ∨ (e.end_ < end_ ∧ (rest.head?.all (·.start > e.end_))) then false
      else unwireCheck end_ rest
    else true

/-- `vm_map_pageable` with `new_pageable` set. -/
def unwire (w : Space) (start end_ : Nat) : Kern × Space :=
  let (start, end_) := rangeCheck w.map start end_
  let (found, entry, map) := vmMapLookupEntry w.map start
  let w := { w with map }
  if found then
    let w := w.clipStartAt entry start
    let (before, rest) := w.map.at_ entry
    if unwireCheck end_ rest then
      let (rest, w) := sweep end_ (fun e w => ([{ e with wiredCount := e.wiredCount - 1 }], w)) rest w
      (.success, w.withEntries (before ++ rest))
    else (.invalidArgument, w)
  else (.invalidAddress, w)

/-- Back from a hole to `start`; the list is in reverse order. -/
def undoWired (start : Nat) : List Entry → List Entry
  | [] => []
  | e :: behind =>
    if e.end_ > start then { e with wiredCount := e.wiredCount - 1 } :: undoWired start behind else e :: behind

/-- Pass 1 of wiring. `behind` are the entries already passed, in reverse order; the
result is whether no hole was met, and all entries. -/
def wireEntries (env : Env) (start end_ : Nat) : List Entry → List Entry → Space → Bool × List Entry × Space
  | behind, [], w => (true, behind.reverse, w)
  | behind, e :: rest, w =>
    if e.start < end_ then
      let e := if e.wiredCount = 0 then e.resolve env e.protection else e
      let (front, e, w) := clipStart w e start
      match clipEnd w e end_ with
      | (e, [], w) =>
        let e := { e with wiredCount := e.wiredCount + 1 }
        if e.end_ < end_ ∧ rest.head?.all (·.start > e.end_) then
          (false, (undoWired start (e :: (front.reverse ++ behind))).reverse ++ rest, w)
        else wireEntries env start end_ (e :: (front.reverse ++ behind)) rest w
      | (e, back, w) =>
        let e := { e with wiredCount := e.wiredCount + 1 }
        -- The entry ends at `end_` and so does the loop.
        (true, (e :: (front.reverse ++ behind)).reverse ++ (back ++ rest), w)
    else (true, behind.reverse ++ e :: rest, w)

/-- Pass 2, over the entries from the first wired one on; `failed` is the first entry
whose fault failed and its error. -/
def wireFaults (env : Env) (end_ : Nat) : List Entry → Option (Nat × Kern) → Space → Option (Nat × Kern) × Space
  | [], failed, w => (failed, w)
  | e :: rest, failed, w =>
    let undo (w : Space) : Space :=
      { w with map := w.map.modify (some e.id) fun e => { e with wiredCount := e.wiredCount - 1 } }
    if e.start < end_ then
      if failed.isSome then wireFaults env end_ rest failed (undo w)
      else if e.wiredCount = 1 then
        let (faults, rv) := env.faultWire e.start e.end_
        let w := faults.foldl (vmMapLookup env) w
        if rv ≠ .success then wireFaults env end_ rest (some (e.start, rv)) (undo w)
        else wireFaults env end_ rest none w
      else wireFaults env end_ rest none w
    else (failed, w)

/-- `vm_map_pageable` with `new_pageable` clear. -/
def wire (env : Env) (w : Space) (start end_ : Nat) : Kern × Space :=
  let (start, end_) := rangeCheck w.map start end_
  let (found, entry, map) := vmMapLookupEntry w.map start
  let w := { w with map }
  if found then
    let (before, rest) := w.map.at_ entry
    match wireEntries env start end_ before.reverse rest w with
    | (false, es, w) => (.invalidArgument, w.withEntries es)
    | (true, es, w) =>
      let w := w.withEntries es
      match wireFaults env end_ (w.map.at_ entry).2 none w with
      | (none, w) => (.success, w)
      | (some (failed, rv), w) => (rv, (unwire w start failed).2)
  else (.invalidAddress, w)

def vmMapPageable (env : Env) (w : Space) (start end_ : Nat) (newPageable : Bool) : Kern × Space :=
  if newPageable then unwire w start end_ else wire env w start end_

/-! ## Deleting and simplifying -/

/-- `vm_map_entry_delete` -/
def entryDelete (e : Entry) (w : Space) : List Entry × Space :=
  ([], {
    map := { w.map with nentries := w.map.nentries - 1, size := w.map.size - (e.end_ - e.start) }
    shares := match e.mapRef with | some s => w.shares.deallocate s | none => w.shares })

def vmMapDelete (w : Space) (start end_ : Nat) : Space :=
  let (found, first, map) := vmMapLookupEntry w.map start
  let w := { w with map }
  let (before, rest, w) :=
    if found then
      let w := w.clipStartAt first start
      let (before, rest) := w.map.at_ first
      (before, rest, { w with map := { w.map with hint := lastRef before } })
    else ((w.map.after first).1, (w.map.after first).2, w)
  let w :=
    if w.map.start w.map.firstFree ≥ start then { w with map := { w.map with firstFree := lastRef before } } else w
  let (rest, w) := sweep end_ entryDelete rest w
  w.withEntries (before ++ rest)

def vmMapRemove (w : Space) (start end_ : Nat) : Space :=
  let (start, end_) := rangeCheck w.map start end_
  vmMapDelete w start end_

/-- The condition of `vm_map_simplify` on the two entries. -/
def mergeable (m : Map) (start : Nat) (prev this : Entry) : Bool :=
  prev.end_ == start && m.isMainMap && !prev.isAMap && !prev.isSubMap && !this.isAMap && !this.isSubMap &&
    prev.inheritance == this.inheritance && prev.protection == this.protection &&
    prev.maxProtection == this.maxProtection && prev.wiredCount == this.wiredCount &&
    prev.copyOnWrite == this.copyOnWrite && prev.needsCopy == this.needsCopy &&
    prev.object == this.object && vmAdd prev.offset (prev.end_ - prev.start) == this.offset

def vmMapSimplify (m : Map) (start : Nat) : Map :=
  let (found, entry, m) := vmMapLookupEntry m start
  let (before, rest) := m.at_ entry
  match found, before.getLast?, rest with
  | true, some prev, this :: rest =>
    if mergeable m start prev this then
      { m with
        firstFree := if m.firstFree = some this.id then some prev.id else m.firstFree
        hint := some prev.id
        nentries := m.nentries - 1
        entries := before.dropLast ++ { prev with end_ := this.end_ } :: rest }
    else m
  | _, _, _ => m

/-! ## Copying and forking -/

/-- `vm_map_copy_entry`, on entries that refer to objects: the source and the
destination entry. -/
def vmMapCopyEntry (env : Env) (src dst : Entry) : Entry × Entry :=
  match src.object, dst.object with
  | .vmObject o, .vmObject _ =>
    if src.wiredCount = 0 then
      let (copy, offset, srcNeedsCopy) := env.copy o src.offset (src.end_ - src.start)
      ({ src with needsCopy := src.needsCopy || srcNeedsCopy, copyOnWrite := true },
        { dst with
          wiredCount := 0, object := .vmObject copy, offset, needsCopy := true, copyOnWrite := true })
    else
      (src, { dst with
        wiredCount := 0, object := .vmObject (some (env.allocate (dst.end_ - dst.start))), offset := 0 })
  | _, _ => (src, dst)

/-- A map with an entry of it that is pointed to: the entries before it, and the others. -/
structure Cursor where
  map : Map
  before : List Entry
  rest : List Entry

namespace Cursor

variable (c : Cursor)

/-- The map the cursor is in. -/
def close : Map := { c.map with entries := c.before ++ c.rest }

/-- `vm_map_clip_end` at the cursor, of an entry that refers to an object. -/
def clipEnd (endaddr : Nat) : Cursor :=
  match c.rest with
  | e :: rest =>
    if endaddr < e.end_ then
      { c with
        map := c.map.linked
        rest := e.clipFront endaddr :: { e.clipBack endaddr with id := c.map.nextId } :: rest }
    else c
  | [] => c

/-- The loop goes on to the next entry with `e` in the place of this one. -/
def advance (e : Entry) : Cursor := { c with before := c.before ++ [e], rest := c.rest.drop 1 }

end Cursor

/-- One turn of the loop of `vm_map_copy`: the next `src_start`, and both maps. There is
no result where the code would use the header as an entry or would follow another
sharing map. -/
def copyTurn (env : Env) (srcEnd dstEnd : Nat) (src dst : Cursor) : Option (Nat × Cursor × Cursor) :=
  let src := src.clipEnd srcEnd
  let dst := dst.clipEnd dstEnd
  match src.rest, dst.rest with
  | s :: _, d :: _ =>
    let src := src.clipEnd (vmAdd s.start (d.end_ - d.start))
    match src.rest with
    | s :: _ =>
      let dst := dst.clipEnd (vmAdd d.start (s.end_ - s.start))
      match dst.rest with
      | d :: _ =>
        if s.isAMap || d.isAMap then none
        else
          let (s', d') := vmMapCopyEntry env s d
          some (s.end_, src.advance s', dst.advance d')
      | [] => none
    | [] => none
  | _, _ => none

/-- The loop of `vm_map_copy`, at most `n` turns. -/
def copyLoop (env : Env) (srcEnd dstEnd : Nat) : Nat → Nat → Cursor → Cursor → Option (Map × Map)
  | 0, srcStart, src, dst => if srcStart < srcEnd then none else some (src.close, dst.close)
  | n + 1, srcStart, src, dst =>
    if srcStart < srcEnd then do
      let (srcStart, src, dst) ← copyTurn env srcEnd dstEnd src dst
      copyLoop env srcEnd dstEnd n srcStart src dst
    else some (src.close, dst.close)

/-- The first lookup and clip of `vm_map_copy` in one map. -/
def copyCursor (m : Map) (addr : Nat) : Option Cursor :=
  let (_, entry, m) := vmMapLookupEntry m addr
  match m.at_ entry with
  | (before, e :: rest) =>
    if addr > e.start then
      some ⟨m.linked, before ++ [{ e.clipFront addr with id := m.nextId }], e.clipBack addr :: rest⟩
    else some ⟨m, before, e :: rest⟩
  | (_, []) => none

/-- `vm_map_copy` from a sharing map into another map, which takes no part of the
checks between two main maps: the source and the destination map. -/
def vmMapCopy (env : Env) (dst src : Map) (dstAddr len srcAddr : Nat) : Option (Map × Map) :=
  let srcEnd := vmAdd srcAddr len
  let dstEnd := vmAdd dstAddr len
  if dstEnd < dstAddr ∨ srcEnd < srcAddr then some (src, dst)
  else
    match copyCursor src srcAddr, copyCursor dst dstAddr with
    | some src, some dst => copyLoop env srcEnd dstEnd (srcEnd - srcAddr) srcAddr src dst
    | _, _ => none

/-- `vm_map_entry_link` behind the last entry. -/
def Map.append (m : Map) (e : Entry) : Map := { m.linked with entries := m.entries ++ [e] }

/-- The sharing map `vmspace_fork` makes of an entry. -/
def shareMapOf (e : Entry) : Map :=
  { vmMapInit e.start e.end_ with isMainMap := false }.append { e with id := 0, wiredCount := 0 }

/-- The loop of `vmspace_fork` over the entries of the old map: these as they are
afterwards, the new map and the sharing maps. There is no result where the code panics. -/
def forkLoop (env : Env) : List Entry → Map → Shares → Option (List Entry × Map × Shares)
  | [], new, sh => some ([], new, sh)
  | old :: rest, new, sh =>
    match old.inheritance, old.object with
    | _, .subMap _ => none
    | .none, _ => (forkLoop env rest new sh).map fun r => (old :: r.1, r.2)
    | .share, .shareMap s =>
      (forkLoop env rest (new.append { old with id := new.nextId, wiredCount := 0 }) (sh.reference s)).map
        fun r => (old :: r.1, r.2)
    | .share, .vmObject _ =>
      let shared := { old with object := .shareMap sh.next, offset := old.start }
      (forkLoop env rest (new.append { shared with id := new.nextId, wiredCount := 0 })
        ((sh.create (shareMapOf old)).reference sh.next)).map fun r => (shared :: r.1, r.2)
    | .copy, .shareMap s => do
      let entry := { old with id := new.nextId, wiredCount := 0, object := .vmObject none }
      let (share, new) ← vmMapCopy env (new.append entry) (← sh.get s) entry.start (entry.end_ - entry.start) old.offset
      (forkLoop env rest new (sh.set s (some share))).map fun r => (old :: r.1, r.2)
    | .copy, .vmObject _ =>
      let entry := { old with id := new.nextId, wiredCount := 0, object := .vmObject none }
      let (old, entry) := vmMapCopyEntry env old entry
      (forkLoop env rest (new.append entry) sh).map fun r => (old :: r.1, r.2)

/-- `vmspace_fork`: the old map, the new map and the sharing maps. -/
def vmspaceFork (env : Env) (w : Space) : Option (Space × Map) := do
  let (old, new, shares) ← forkLoop env w.map.entries (vmMapInit w.map.minOffset w.map.maxOffset) w.shares
  some (⟨{ w.map with entries := old }, shares⟩, { new with size := w.map.size })

end BsdKernel.VmMap
