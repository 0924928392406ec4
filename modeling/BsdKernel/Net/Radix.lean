import BsdKernel.Lib.Bytes
import BsdKernel.Lib.Patricia
/-!
# Radix trees of routes

`net/radix.c`. A leaf of the tree is a chain of routes with one key
(`rn_dupedkey`), and an inner node carries the mask list that annotates its
subtree. Node memory is handed in by the callers in pairs, a leaf and the inner
node behind it: `Pair` names such a pair, and `Inner.slot` is the pair whose
second half holds an inner node, which is what `rn_delete` relocates.

Keys are read byte by byte; byte 0 is the length. A mask is known by the copy that
`rn_addmask` keeps of it, so two masks are one pointer exactly when they are
equal; a mask record is named by the leaf it was made for.
-/

namespace BsdKernel.Radix
open Lib

/-- The lengths a tree works with: `dom_rtoffset` in bytes, the length of the keys and
`max_keylen`, which is the size of a socket address. -/
structure Shape where
  off : Nat
  vlen : Nat
  maxKeylen : Nat
  off_pos : 1 ≤ off
  off_lt : off < vlen
  vlen_le : vlen ≤ maxKeylen
  maxKeylen_lt : maxKeylen < 255

abbrev Key := List Byte

/-- `v[i]`. -/
def byteAt (v : Key) (i : Nat) : Byte := v.getD i 0

/-- `rn_bmask & v[rn_off]` at a node that tests bit `b`. -/
def bitSet (v : Key) (b : Nat) : Bool := (0x80#8 >>> (b % 8)) &&& byteAt v (b / 8) != 0#8

/-- Two nodes of memory next to each other. The first pair of `rnh_nodes` holds the leaf
of zeros and the top of the tree, its third node the leaf of ones. -/
inductive Pair where
  | zeros
  | ones
  | user (n : Nat)
deriving DecidableEq, Repr

/-- A leaf without its `rn_mklist`. -/
structure Route where
  pair : Pair
  key : Key
  mask : Option Key
  b : Int
  normal : Bool
  root : Bool
deriving DecidableEq, Repr

/-- A leaf; `mklist` names the mask record made for it. -/
structure Leaf where
  route : Route
  mklist : Option Pair
deriving DecidableEq, Repr

/-- `rm_rmu`: the leaf of a normal route, with the mask behind it, or else the mask. -/
inductive MaskRef where
  | leaf (p : Pair) (mask : Option Key)
  | mask (m : Option Key)
deriving DecidableEq, Repr

/-- `rm_rmu` read as a mask, behind the leaf of a normal route. -/
def MaskRef.mmask : MaskRef → Option Key
  | .leaf _ m => m
  | .mask m => m

def MaskRef.isNormal : MaskRef → Bool
  | .leaf _ _ => true
  | .mask _ => false

/-- `struct radix_mask`. -/
structure RadixMask where
  owner : Pair
  b : Int
  ref : MaskRef
  refs : Int
deriving DecidableEq, Repr

/-- What an inner node carries beside its bit: where it is stored and its mask list. -/
structure Inner where
  slot : Pair
  mklist : List RadixMask
deriving DecidableEq, Repr

abbrev Tree := PTree Inner Leaf

abbrev Crumb := PTree.Crumb Inner Leaf

/-- `rn_off` of the top of a tree. -/
def headOff : Tree → Nat
  | .leaf _ => 0
  | .node _ b _ _ => b / 8

/-! ## Comparing keys -/

/-- The first of `n` bytes from `i` on at which two keys differ. -/
def diffByte (v k : Key) : Nat → Nat → Option Nat
  | _, 0 => none
  | i, n + 1 => if byteAt v i ≠ byteAt k i then some i else diffByte v k (i + 1) n

/-- `for (b = 7; (test >>= 1) > 0;) b--`. -/
def leadBit : Nat → Byte → Nat
  | 0, _ => 0
  | b + 1, test => if test >>> 1 = 0#8 then b + 1 else leadBit b (test >>> 1)

/-- `for (; cmp_res; b--) cmp_res >>= 1`; a byte is zero after at most eight turns. -/
def countDown : Nat → Nat → Byte → Nat
  | 0, b, _ => b
  | n + 1, b, cmpRes => if cmpRes = 0#8 then b else countDown n (b - 1) (cmpRes >>> 1)

/-- `rn_search`, with the way back. -/
def rnSearch (v : Key) (head : Tree) : List Crumb × List Leaf := head.descend (bitSet v) []

/-- `rn_search_m`. -/
def rnSearchM (v : Key) (head : Tree) (m : Key) : List Leaf := (head.descend (fun b => bitSet m b && bitSet v b) []).2

/-- `rn_refines`. -/
def rnRefines (m n : Key) : Bool :=
  let mlen := (byteAt m 0).toNat
  let nlen := (byteAt n 0).toNat
  let common := List.range' 1 (min mlen nlen - 1)
  let masksAreEqual := common.all fun i => byteAt n i == byteAt m i
  if common.any fun i => byteAt n i &&& ~~~(byteAt m i) != 0#8 then false
  else if (List.range' (max 1 (min mlen nlen)) (nlen - max 1 (min mlen nlen))).any fun i => byteAt n i != 0#8 then false
  else if masksAreEqual && nlen < mlen &&
      (List.range' (max 1 nlen) (mlen - nlen)).any fun i => byteAt m i != 0#8 then true
  else !masksAreEqual

/-- `rn_lexobetter`. -/
def rnLexobetter (m n : Key) : Bool :=
  if byteAt n 0 < byteAt m 0 then true
  else if byteAt m 0 = byteAt n 0 then
    (List.range (byteAt m 0).toNat).any fun i => byteAt n i < byteAt m i
  else false

/-- `rn_satsifies_leaf`. -/
def rnSatsifiesLeaf (trial : Key) (leaf : Route) (skip : Nat) : Bool :=
  let length := min (byteAt trial 0).toNat (byteAt leaf.key 0).toNat
  match leaf.mask with
  | none => (List.range' skip (length - skip)).all fun i => (byteAt trial i ^^^ byteAt leaf.key i) &&& 0xff#8 == 0#8
  | some m =>
    (List.range' skip (min length (byteAt m 0).toNat - skip)).all fun i =>
      (byteAt trial i ^^^ byteAt leaf.key i) &&& byteAt m i == 0#8

/-! ## `rn_match` -/

/-- A route of the chain the search ends in applies to `v`. -/
def chainHit (v : Key) (rnB : Int) (matchedOff : Nat) (t : Route) : Bool :=
  if t.normal then rnB ≤ t.b else rnSatsifiesLeaf v t matchedOff

/-- The leaf that a mask record at the top of `t` finds for `v`. -/
def maskHit (v : Key) (rnB : Int) (matchedOff : Nat) (t : Tree) (m : RadixMask) : Option Pair :=
  match m.ref with
  | .leaf p _ => if rnB ≤ m.b then some p else none
  | .mask mk =>
    match (rnSearchM v t (mk.getD [])).find? fun x => x.route.mask = mk with
    | none => none
    | some x => if rnSatsifiesLeaf v x.route (min (headOff t) matchedOff) then some x.route.pair else none

/-- The search up the tree from the subtree `t`. -/
def searchUp (v : Key) (rnB : Int) (matchedOff : Nat) : List Crumb → Tree → Option Pair
  | [], _ => none
  | c :: cs, t =>
    match c.d.mklist.findSome? (maskHit v rnB matchedOff (c.fill t)) with
    | some p => some p
    | none => searchUp v rnB matchedOff cs (c.fill t)

/-- How many bytes of `v` are compared with the leaf: those of its mask, if it has one. -/
def matchLen (v : Key) (t : Route) : Nat :=
  match t.mask with
  | some m => (byteAt m 0).toNat
  | none => (byteAt v 0).toNat

def rnMatch (v : Key) (top : Tree) : Option Pair :=
  let off := headOff top
  match rnSearch v top with
  | (_, []) => none
  | (cs, t :: dupedkey) =>
    match diffByte v t.route.key off (matchLen v t.route - off) with
    | none =>
      match dupedkey with
      | d :: _ => if t.route.root then some d.route.pair else some t.route.pair
      | [] => some t.route.pair
    | some matchedOff =>
      let b := leadBit 7 (byteAt v matchedOff ^^^ byteAt t.route.key matchedOff) + matchedOff * 8
      let rnB : Int := -1 - b
      let chain := if t.route.mask = none then dupedkey else t :: dupedkey
      match chain.find? fun x => chainHit v rnB matchedOff x.route with
      | some x => some x.route.pair
      | none => searchUp v rnB matchedOff cs (.leaf (t :: dupedkey))

/-! ## `rn_insert` -/

/-- What `rn_insert` did: found the key in a chain, or the place above `x` for a node that tests `b`. -/
inductive Inserted where
  | dup (cs : List Crumb) (chain : List Leaf)
  | placed (cs : List Crumb) (b : Nat) (x : Tree)

/-- The way down from the top to the first node that does not test a bit before `b`; the
top itself is always passed. -/
def place (v : Key) (b : Nat) : Tree → List Crumb × Tree
  | .leaf ch => ([], .leaf ch)
  | .node d c l r =>
    if bitSet v c then r.descendTo (bitSet v) b [⟨d, c, true, l⟩] else l.descendTo (bitSet v) b [⟨d, c, false, r⟩]

/-- `rn_key` of the first leaf of a chain. -/
def chainKey : List Leaf → Key
  | [] => []
  | t :: _ => t.route.key

def rnInsert (v : Key) (top : Tree) : Inserted :=
  let vlen := (byteAt v 0).toNat
  let found := rnSearch v top
  let key := chainKey found.2
  match diffByte v key (headOff top) (vlen - headOff top) with
  | none => .dup found.1 found.2
  | some i =>
    let b := countDown 8 ((i + 1) * 8) (byteAt v i ^^^ byteAt key i)
    let at_ := place v b top
    .placed at_.1 b at_.2

/-- The crumb of the inner node of `rn_newpair`, with `x` opposite to the new leaf. -/
def newpair (slot : Pair) (mklist : List RadixMask) (v : Key) (b : Nat) (x : Tree) : Crumb :=
  ⟨⟨slot, mklist⟩, b, bitSet v b, x⟩

/-! ## Masks -/

/-- The masks known so far and the buffer of `rn_addmask`, `addmask_key` with `last_zeroed`. -/
structure MaskHead where
  top : Tree
  addmaskKey : Key
  lastZeroed : Nat

def rnZeros (sh : Shape) : Key := List.replicate sh.maxKeylen 0#8

def rnOnes (sh : Shape) : Key := List.replicate sh.maxKeylen 0xff#8

/-- The two leaves `rn_inithead` puts in a tree whose top tests bit `off`. -/
def zerosLeaf (sh : Shape) (off : Nat) : Route := ⟨.zeros, rnZeros sh, none, -1 - off, false, true⟩

def onesLeaf (sh : Shape) (off : Nat) : Route := ⟨.ones, rnOnes sh, none, -1 - off, false, true⟩

/-- `rn_inithead`. -/
def rnInithead (sh : Shape) (off : Nat) : Tree :=
  .node ⟨.zeros, []⟩ off (.leaf [⟨zerosLeaf sh off, none⟩]) (.leaf [⟨onesLeaf sh off, none⟩])

/-- The length of the first `n` bytes without the zeros at their end. -/
def trimLen (k : Key) : Nat → Nat
  | 0 => 0
  | n + 1 => if byteAt k n = 0#8 then trimLen k n else n + 1

/-- The first of `n` bytes from `i` on that is not all ones, or their end. -/
def onesLen (m : Key) : Nat → Nat → Nat
  | i, 0 => i
  | i, n + 1 => if byteAt m i = 0xff#8 then onesLen m (i + 1) n else i

/-- `for (j = 0x80; (j & *cp) != 0; j >>= 1) b++`. -/
def leadOnes (c : Byte) : Nat → Byte → Nat → Nat
  | 0, _, b => b
  | n + 1, j, b => if j &&& c ≠ 0#8 then leadOnes c n (j >>> 1) (b + 1) else b

def normalChars : List Byte := [0x00, 0x80, 0xc0, 0xe0, 0xf0, 0xf8, 0xfc, 0xfe, 0xff]

/-- The index of a mask of `mlen` bytes and whether it is normal. -/
def maskIndex (netmask : Key) (skip mlen : Nat) : Nat × Bool :=
  let cp := onesLen netmask skip (mlen - skip)
  if cp = mlen then (cp * 8, true)
  else
    let b := leadOnes (byteAt netmask cp) 8 0x80#8 0
    (b + cp * 8, byteAt netmask cp = normalChars.getD b 0 && cp = mlen - 1)

/-- `addmask_key` after a mask of `mlen` bytes is copied in behind `skip`. -/
def copyMask (sh : Shape) (netmask : Key) (skip mlen : Nat) (buf : Key) : Key :=
  (List.range sh.maxKeylen).map fun i =>
    if 1 ≤ i ∧ i < skip then 0xff#8 else if skip ≤ i ∧ i < mlen then byteAt netmask i else byteAt buf i

/-- `addmask_key` with zeros from `m0` up to `last_zeroed` and its length in front. -/
def sealMask (sh : Shape) (m0 lastZeroed mlen : Nat) (buf : Key) : Key :=
  (List.range sh.maxKeylen).map fun i =>
    if i = 0 then BitVec.ofNat 8 mlen else if m0 ≤ i ∧ i < lastZeroed then 0#8 else byteAt buf i

/-- The copy of the first `mlen` bytes that is kept in the tree of masks. -/
def keepMask (sh : Shape) (mlen : Nat) (buf : Key) : Key :=
  (List.range sh.maxKeylen).map fun i => if i < mlen then byteAt buf i else 0#8

/-- Look `addmask_key` of `mlen` bytes up among the known masks, and enter it unless `search`. -/
def internMask (sh : Shape) (search : Bool) (skip mlen : Nat) (mh : MaskHead) : Option Route × MaskHead :=
  let found := (rnSearch mh.addmaskKey mh.top).2
  let x := found.head?.filter fun x => (diffByte mh.addmaskKey x.route.key 0 mlen).isNone
  if x.isSome || search then (x.map (·.route), mh)
  else
    let netmask := keepMask sh mlen mh.addmaskKey
    match rnInsert netmask mh.top with
    | .dup _ chain => (chain.head?.map (·.route), mh)
    | .placed cs b x =>
      let pair := Pair.user mh.top.members.length
      let index := maskIndex netmask skip mlen
      let leaf : Route := ⟨pair, netmask, none, -1 - index.1, index.2, false⟩
      (some leaf, { mh with top := PTree.plug (newpair pair [] netmask b x :: cs) (.leaf [⟨leaf, none⟩]) })

/-- `rn_addmask`. -/
def rnAddmask (sh : Shape) (netmask : Key) (search : Bool) (skip : Nat) (mh : MaskHead) : Option Route × MaskHead :=
  let m0 := min (byteAt netmask 0).toNat sh.maxKeylen
  let skip := if skip = 0 then 1 else skip
  if m0 ≤ skip then (some (zerosLeaf sh 0), mh)
  else
    let buf := copyMask sh netmask skip m0 mh.addmaskKey
    let mlen := trimLen buf m0
    if mlen ≤ skip then
      (some (zerosLeaf sh 0),
        { mh with addmaskKey := buf, lastZeroed := if mh.lastZeroed ≤ m0 then mlen else mh.lastZeroed })
    else
      internMask sh search skip mlen
        { mh with addmaskKey := sealMask sh m0 mh.lastZeroed mlen buf, lastZeroed := mlen }

/-! ## `rn_addroute` -/

/-- `rn_new_radix_mask`. -/
def rnNewRadixMask (tt : Route) : RadixMask :=
  ⟨tt.pair, tt.b, if tt.normal then .leaf tt.pair tt.mask else .mask tt.mask, 0⟩

/-- The new route goes in front of `tt` in a chain. -/
def goesFirst (new tt : Route) : Bool :=
  match new.mask, tt.mask with
  | none, _ => true
  | some _, none => false
  | some n, some m => new.b < tt.b || rnRefines n m || rnLexobetter n m

/-- The chain with the new leaf, unless its mask is there already. -/
def joinChain (tt : Leaf) : List Leaf → Option (List Leaf)
  | [] => some [tt]
  | t :: ts =>
    if t.route.mask = tt.route.mask then none
    else if goesFirst tt.route t.route then some (tt :: t :: ts)
    else (joinChain tt ts).map (t :: ·)

/-- A leaf below a new node that tests `b` has a mask that the node can list. -/
def promoted (b : Nat) (x : Leaf) : Bool := x.route.mask.isSome && (-1 - (b : Int) ≤ x.route.b) && x.mklist.isNone

/-- The masks a new node that tests `b` takes over from `x` below, and what is left of `x`. -/
def promote (b : Nat) : Tree → List RadixMask × Tree
  | .leaf ch =>
    ((ch.filter (promoted b)).map fun x => rnNewRadixMask x.route,
      .leaf (ch.map fun x => if promoted b x then { x with mklist := some x.route.pair } else x))
  | .node d c l r =>
    (d.mklist.dropWhile fun m => m.b < -1 - (b : Int),
      .node { d with mklist := d.mklist.takeWhile fun m => m.b < -1 - (b : Int) } c l r)

/-- The masks of a node with the new route's in its place, and the record that stands for it. -/
def enterMask (tt : Route) : List RadixMask → Option (List RadixMask × Pair)
  | [] => some ([rnNewRadixMask tt], tt.pair)
  | m :: ms =>
    if m.b < tt.b then (enterMask tt ms).map fun r => (m :: r.1, r.2)
    else if tt.b < m.b then some (rnNewRadixMask tt :: m :: ms, tt.pair)
    else if m.ref.isNormal && tt.normal then none
    else if m.ref.mmask = tt.mask then some ({ m with refs := m.refs + 1 } :: ms, m.owner)
    else if rnRefines (tt.mask.getD []) (m.ref.mmask.getD []) || rnLexobetter (tt.mask.getD []) (m.ref.mmask.getD []) then
      some (rnNewRadixMask tt :: m :: ms, tt.pair)
    else (enterMask tt ms).map fun r => (m :: r.1, r.2)

/-- `b <= t->rn_b && x != top` with `t` the parent of `x`. -/
def lifts (b : Int) : List Crumb → Bool
  | [] => false
  | t :: _ => b ≤ t.b

/-- The highest node above that tests no bit before `b`. -/
def highest (b : Int) : List Crumb → Option Inner
  | [] => none
  | x :: cs => if lifts b cs then highest b cs else some x.d

def atHighest (b : Int) (f : Inner → Inner) : List Crumb → List Crumb
  | [] => []
  | x :: cs => if lifts b cs then x :: atHighest b f cs else { x with d := f x.d } :: cs

/-- Add the new route to the highest possible ancestor's list. -/
def liftMask (tt : Route) (cs : List Crumb) : List Crumb × Option Pair :=
  if tt.mask.isSome && lifts (-1 - tt.b) cs then
    match (highest (-1 - tt.b) cs).bind fun x => enterMask tt x.mklist with
    | some (mk, owner) => (atHighest (-1 - tt.b) (fun x => { x with mklist := mk }) cs, some owner)
    | none => (cs, none)
  else (cs, none)

/-- Enter a leaf in a tree, unless its key and mask are there already. -/
def enterRoute (tt : Route) (top : Tree) : Option Tree :=
  match rnInsert tt.key top with
  | .dup cs chain =>
    let lifted := liftMask tt cs
    (joinChain ⟨tt, lifted.2⟩ chain).map fun chain => PTree.plug lifted.1 (.leaf chain)
  | .placed cs b x =>
    let below := promote b x
    let lifted := liftMask tt (newpair tt.pair below.1 tt.key b below.2 :: cs)
    some (PTree.plug lifted.1 (.leaf [⟨tt, lifted.2⟩]))

/-- A tree of routes and the masks they share. -/
structure Head where
  top : Tree
  masks : MaskHead

/-- The leaf `rn_addroute` fills in, with the mask found for it. -/
def newLeaf (v : Key) (pair : Pair) : Option Route → Route
  | none => ⟨pair, v, none, -1, false, false⟩
  | some x => ⟨pair, v, some x.key, x.b, x.normal, false⟩

/-- Enter the leaf of a pair and say which one, or 0. -/
def addLeaf (tt : Route) (h : Head) : Option Pair × Head :=
  match enterRoute tt h.top with
  | none => (none, h)
  | some top => (some tt.pair, { h with top := top })

/-- `rn_addroute`. -/
def rnAddroute (sh : Shape) (v : Key) (netmask : Option Key) (pair : Pair) (h : Head) : Option Pair × Head :=
  match netmask with
  | none => addLeaf (newLeaf v pair none) h
  | some nm =>
    match rnAddmask sh nm false (headOff h.top) h.masks with
    | (none, masks) => (none, { h with masks := masks })
    | (some x, masks) => addLeaf (newLeaf v pair (some x)) { h with masks := masks }

/-! ## `rn_delete` -/

/-- The outcome of taking a leaf out of the mask lists. -/
inductive Cut where
  | dangling
  | refused
  | done (cs : List Crumb)

/-- Take the record that `owner` names out of the list of the highest node it can be on. -/
def cutMask (tt : Route) (owner : Pair) (cs : List Crumb) : Cut :=
  if lifts (-1 - tt.b) cs then
    if ((highest (-1 - tt.b) cs).map (·.mklist)).getD [] |>.any fun m => m.owner = owner then
      .done (atHighest (-1 - tt.b) (fun x => { x with mklist := x.mklist.eraseP fun m => m.owner = owner }) cs)
    else if tt.normal then .refused
    else .done cs
  else .done cs

/-- Delete a route from the mask lists above it. -/
def dropMask (tt : Leaf) (cs : List Crumb) : Cut :=
  match tt.route.mask, tt.mklist with
  | some _, some owner =>
    match (cs.flatMap (·.d.mklist)).find? fun m => m.owner = owner with
    | none => .dangling
    | some m =>
      if tt.route.normal then
        if m.ref ≠ .leaf tt.route.pair tt.route.mask ∨ 0 < m.refs then .refused else cutMask tt.route owner cs
      else if m.ref ≠ .mask tt.route.mask then .done cs
      else if 0 ≤ m.refs - 1 then
        .done (cs.map fun c => { c with d := { c.d with mklist := c.d.mklist.map fun m =>
          if m.owner = owner then { m with refs := m.refs - 1 } else m } })
      else cutMask tt.route owner cs
  | _, _ => .done cs

/-- Move the inner node behind `src` to the memory behind `dst`, which must hold none. -/
def relocate (src dst : Pair) (top : Tree) : Option Tree :=
  if src ∈ top.inner.map (·.slot) ∧ dst ∉ top.inner.map (·.slot) then
    some (top.mapInner fun d => if d.slot = src then { d with slot := dst } else d)
  else none

/-- The marks of the chain below a node whose list `mk` goes. -/
def demoteChain : List RadixMask → List Leaf → List Leaf
  | [], ch => ch
  | _ :: _, [] => []
  | m :: ms, x :: xs =>
    if x.mklist = some m.owner then { x with mklist := none } :: demoteChain ms xs
    else x :: demoteChain (m :: ms) xs

/-- Demote routes attached to a node that goes to its other child. -/
def demote (mk : List RadixMask) : Tree → Tree
  | .leaf ch => .leaf (demoteChain mk ch)
  | .node d c l r => .node { d with mklist := d.mklist ++ mk } c l r

/-- Eliminate `tt` from the chain that starts with `saved`; `none` where memory in use would be lost. -/
def eliminate (tt : Leaf) (cs : List Crumb) (chain : List Leaf) : Option Tree :=
  match chain.erase tt, cs with
  | x :: rest, _ =>
    let top := PTree.plug cs (.leaf (x :: rest))
    if tt.route.pair ∈ top.inner.map (·.slot) then relocate tt.route.pair x.route.pair top else some top
  | [], t :: p :: cs =>
    let top := PTree.plug (p :: cs) (demote t.d.mklist t.sib)
    if t.d.slot = tt.route.pair then some top else relocate tt.route.pair t.d.slot top
  | [], _ => none

/-- Take the leaf `tt` of a chain out of the tree; the outer `none` is a run on bad memory. -/
def deleteLeaf (tt : Leaf) (cs : List Crumb) (chain : List Leaf) (h : Head) : Option (Option Pair × Head) :=
  match dropMask tt cs with
  | .dangling => none
  | .refused => some (none, h)
  | .done cs =>
    if tt.route.root then some (none, { h with top := PTree.plug cs (.leaf chain) })
    else (eliminate tt cs chain).map fun top => (some tt.route.pair, { h with top := top })

/-- `rn_delete`. -/
def rnDelete (sh : Shape) (v : Key) (netmask : Option Key) (h : Head) : Option (Option Pair × Head) :=
  let off := headOff h.top
  let found := rnSearch v h.top
  if (diffByte v (chainKey found.2) off ((byteAt v 0).toNat - off)).isSome then some (none, h)
  else
    match netmask with
    | none =>
      match found.2.head? with
      | none => some (none, h)
      | some tt => deleteLeaf tt found.1 found.2 h
    | some nm =>
      match rnAddmask sh nm true off h.masks with
      | (none, masks) => some (none, { h with masks := masks })
      | (some x, masks) =>
        match found.2.find? fun tt => tt.route.mask = some x.key with
        | none => some (none, { h with masks := masks })
        | some tt => deleteLeaf tt found.1 found.2 { h with masks := masks }

end BsdKernel.Radix
