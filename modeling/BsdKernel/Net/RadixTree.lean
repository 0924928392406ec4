import BsdKernel.Net.RadixKeys
import Mathlib.Data.List.Sort
/-!
# The invariant of a radix tree

`TreeOk` says what the comment at the head of `net/radix.c` promises: all
descendants of a node agree before its bit and are divided by it, a chain is
sorted from the most to the least specific mask, and each route with a mask is
on the list of the highest node above it that tests no bit before the mask's
end. Where a route is listed only depends on the bits of the node and of its
parent (`Listed`), so a list is right or wrong on its own.
-/

namespace BsdKernel.Radix
open Lib PTree

variable {ρ : Route}

/-! ## Routes -/

/-- `rn_b` of a leaf with a mask of length `p`. -/
def indexOf (sh : Shape) (p : Nat) : Int := if p = sh.n0 then -1 else -1 - (p : Int)

/-- The kept copy of the masks of length `p`. -/
def maskOf (sh : Shape) (p : Nat) : Key := if p = sh.n0 then rnZeros sh else maskKey sh p

/-- A route with a mask of length `p`; the default route has length `n0`. -/
structure Net (sh : Shape) (p : Nat) (ρ : Route) : Prop where
  n0_le : sh.n0 ≤ p
  le_nbits : p ≤ sh.nbits
  root : ρ.root = false
  mask : ρ.mask = some (maskOf sh p)
  b : ρ.b = indexOf sh p
  normal : ρ.normal = decide (p ≠ sh.n0)
  zero : ∀ b, p ≤ b → b < sh.nbits → bitSet ρ.key b = false

/-- A leaf is one of the two of `rn_inithead`, a host route or a route with a mask. -/
inductive RouteOk (sh : Shape) (ρ : Route) : Prop
  | sentinel (h : ρ = zerosLeaf sh sh.n0 ∨ ρ = onesLeaf sh sh.n0)
  | host (root : ρ.root = false) (mask : ρ.mask = none)
  | net (p : Nat) (h : Net sh p ρ)

section Index
variable {sh : Shape} {p q b : Nat}

theorem Shape.n0_pos (sh : Shape) : 8 ≤ sh.n0 := by
  have := sh.off_pos
  unfold Shape.n0
  omega

theorem indexOf_lt (hp : sh.n0 ≤ p) (hq : sh.n0 ≤ q) : indexOf sh p < indexOf sh q ↔ q < p := by
  have := sh.n0_pos
  unfold indexOf
  split <;> split <;> omega

theorem indexOf_inj (hp : sh.n0 ≤ p) (hq : sh.n0 ≤ q) (h : indexOf sh p = indexOf sh q) : p = q := by
  have := sh.n0_pos
  unfold indexOf at h
  split at h <;> split at h <;> omega

theorem indexOf_lt_bit (hb : sh.n0 ≤ b) : indexOf sh p < -1 - (b : Int) ↔ b < p := by
  unfold indexOf
  split <;> omega

theorem index_le_bit (hb : sh.n0 ≤ b) : -1 - indexOf sh p ≤ (b : Int) ↔ p ≤ b := by
  unfold indexOf
  split <;> omega

theorem Net.unique (hp : Net sh p ρ) (hq : Net sh q ρ) : p = q :=
  indexOf_inj hp.n0_le hq.n0_le (hp.b.symm.trans hq.b)

theorem RouteOk.net_of_mask (h : RouteOk sh ρ) (hm : ρ.mask.isSome) : ∃ p, Net sh p ρ := by
  rcases h with h | ⟨-, h⟩ | ⟨p, hp⟩
  · rcases h with rfl | rfl <;> simp [zerosLeaf, onesLeaf] at hm
  · rw [h] at hm
    cases hm
  · exact ⟨p, hp⟩

/-- Routes with equal masks and equal bits before their ends have equal keys. -/
theorem Net.agree {σ : Route} (hρ : Net sh p ρ) (hσ : Net sh p σ) (h : Agree sh.n0 (bitSet ρ.key) (bitSet σ.key) p) :
    Agree sh.n0 (bitSet ρ.key) (bitSet σ.key) sh.nbits := by
  intro j h0 hj
  by_cases hjp : j < p
  · exact h j h0 hjp
  · rw [hρ.zero j (by omega) hj, hσ.zero j (by omega) hj]

end Index

/-! ## Lists and chains -/

/-- The key bits of a leaf. -/
def leafBits (x : Leaf) : Nat → Bool := bitSet x.route.key

/-- The routes at some leaves. -/
def routes (A : List Leaf) : List Route := A.map (·.route)

/-- `ρ` belongs on the list of a node that tests `b` below one that tests the bit before `lo`. -/
def Listed (sh : Shape) (lo b : Nat) (ρ : Route) : Prop := ∃ p, Net sh p ρ ∧ lo ≤ p ∧ p ≤ b

/-- A mask list has the records of the routes that belong there, by falling length. -/
structure MkOk (sh : Shape) (lo b : Nat) (mk : List RadixMask) (A : List Route) : Prop where
  mem : ∀ m, m ∈ mk ↔ ∃ ρ ∈ A, Listed sh lo b ρ ∧ m = rnNewRadixMask ρ
  sorted : mk.Pairwise fun m m' => m.b < m'.b

structure NodeOk (sh : Shape) (lo b : Nat) (d : Inner) (L R : List Leaf) : Prop where
  n0_le : sh.n0 ≤ b
  lt_nbits : b < sh.nbits
  divides : Divides leafBits sh.n0 b L R
  list : MkOk sh lo b d.mklist (routes (L ++ R))

/-- The mark of a leaf below a node that tests the bit before `lo`: its record, if it is listed. -/
structure MarkOk (sh : Shape) (lo : Nat) (x : Leaf) : Prop where
  unmasked : x.route.mask = none → x.mklist = none
  net : ∀ p, Net sh p x.route → x.mklist = if p < lo then some x.route.pair else none

/-- `x` may stand before `y` in a chain: only the first leaf is without a mask, and the longer one comes first. -/
def Before (x y : Leaf) : Prop := y.route.mask.isSome ∧ (x.route.mask.isSome → x.route.b < y.route.b)

structure ChainOk (sh : Shape) (lo : Nat) (ch : List Leaf) : Prop where
  ne : ch ≠ []
  agree : ∀ x ∈ ch, ∀ y ∈ ch, Agree sh.n0 (leafBits x) (leafBits y) sh.nbits
  order : ch.Pairwise Before
  mark : ∀ x ∈ ch, MarkOk sh lo x

/-- The tree of routes. -/
structure TreeOk (sh : Shape) (t : Tree) : Prop where
  holds : Holds (NodeOk sh) (ChainOk sh) 0 t
  top : TopBit sh.n0 t
  route : ∀ x ∈ t.members, RouteOk sh x.route
  pairs : (t.members.map (·.route.pair)).Nodup
  zeros : zerosLeaf sh sh.n0 ∈ routes t.members
  ones : onesLeaf sh sh.n0 ∈ routes t.members

section Routes
variable {sh : Shape} {A A' : List Leaf}
variable {lo b : Nat}

theorem mem_routes : ρ ∈ routes A ↔ ∃ x ∈ A, x.route = ρ := List.mem_map

@[simp] theorem routes_append : routes (A ++ A') = routes A ++ routes A' := List.map_append

theorem nodeOk_divides {d : Inner} {L R : List Leaf} (h : NodeOk sh lo b d L R) :
    Divides leafBits sh.n0 b L R ∧ sh.n0 ≤ b ∧ b < sh.nbits := ⟨h.divides, h.n0_le, h.lt_nbits⟩

theorem b_rnNewRadixMask (ρ : Route) : (rnNewRadixMask ρ).b = ρ.b := rfl

theorem Listed.inj {σ : Route} (hρ : Listed sh lo b ρ) (hσ : Listed sh lo b σ)
    (hag : Agree sh.n0 (bitSet ρ.key) (bitSet σ.key) b) (hb : ρ.b = σ.b) :
    Agree sh.n0 (bitSet ρ.key) (bitSet σ.key) sh.nbits ∧ ρ.mask = σ.mask := by
  obtain ⟨p, hp, -, hpb⟩ := hρ
  obtain ⟨q, hq, -, -⟩ := hσ
  rw [hp.b, hq.b] at hb
  obtain rfl := indexOf_inj hp.n0_le hq.n0_le hb
  exact ⟨hp.agree hq (hag.mono hpb), hp.mask.trans hq.mask.symm⟩

/-- A list only depends on the set of routes below. -/
theorem MkOk.congr {mk : List RadixMask} {A A' : List Route} (h : MkOk sh lo b mk A) (hA : ∀ ρ, ρ ∈ A' ↔ ρ ∈ A) :
    MkOk sh lo b mk A' := by
  refine ⟨?_, h.sorted⟩
  intro m
  rw [h.mem]
  simp only [hA]

end Routes

end BsdKernel.Radix
