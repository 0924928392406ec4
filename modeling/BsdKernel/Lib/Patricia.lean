import Mathlib.Data.List.Basic
/-!
# Binary trees with one-way branching removed

An inner node tests one bit of a key and carries data; a leaf holds a bucket of
entries. A position in a tree is the list of `Crumb`s from it up to the root,
nearest first, and `plug` rebuilds the tree.

`Holds P Q` is an invariant that is local to a node: `P` reads the bit tested
above, the node's own bit, its data and the entries on both sides, and `Q` reads
a bucket. `holds_plug` splits it at a position and `CtxHolds.update` carries it
over an edit below a position. `descend_best` is what the search is for: the
bucket it ends in shares the longest prefix with the key.
-/

namespace BsdKernel.Lib

/-- A tree whose nodes test bit `b`, with data `β`, over buckets of entries `α`. -/
inductive PTree (β α : Type*) where
  | leaf (bucket : List α)
  | node (d : β) (b : Nat) (l r : PTree β α)

namespace PTree
variable {β α : Type*}

/-- The entries of a tree, from left to right. -/
def members : PTree β α → List α
  | leaf ch => ch
  | node _ _ l r => members l ++ members r

/-- The data of the nodes, the root first. -/
def inner : PTree β α → List β
  | leaf _ => []
  | node d _ l r => d :: (inner l ++ inner r)

/-- The buckets of a tree, from left to right. -/
def buckets : PTree β α → List (List α)
  | leaf ch => [ch]
  | node _ _ l r => buckets l ++ buckets r

/-- The same tree with other data at its nodes. -/
def mapInner (f : β → β) : PTree β α → PTree β α
  | leaf ch => leaf ch
  | node d b l r => node (f d) b (mapInner f l) (mapInner f r)

@[simp] theorem members_leaf (ch : List α) : members (leaf ch : PTree β α) = ch := rfl

@[simp] theorem members_node (d : β) (b : Nat) (l r : PTree β α) :
    members (node d b l r) = members l ++ members r := rfl

@[simp] theorem inner_leaf (ch : List α) : inner (leaf ch : PTree β α) = [] := rfl

@[simp] theorem inner_node (d : β) (b : Nat) (l r : PTree β α) :
    inner (node d b l r) = d :: (inner l ++ inner r) := rfl

@[simp] theorem buckets_leaf (ch : List α) : buckets (leaf ch : PTree β α) = [ch] := rfl

@[simp] theorem buckets_node (d : β) (b : Nat) (l r : PTree β α) :
    buckets (node d b l r) = buckets l ++ buckets r := rfl

theorem flatten_buckets (t : PTree β α) : t.buckets.flatten = t.members := by
  induction t with
  | leaf ch => simp
  | node d b l r ihl ihr => simp [ihl, ihr]

@[simp] theorem buckets_mapInner (f : β → β) (t : PTree β α) : (t.mapInner f).buckets = t.buckets := by
  induction t with
  | leaf ch => rfl
  | node d b l r ihl ihr => simp [mapInner, ihl, ihr]

@[simp] theorem members_mapInner (f : β → β) (t : PTree β α) : (t.mapInner f).members = t.members := by
  induction t with
  | leaf ch => rfl
  | node d b l r ihl ihr => simp [mapInner, ihl, ihr]

@[simp] theorem inner_mapInner (f : β → β) (t : PTree β α) : (t.mapInner f).inner = t.inner.map f := by
  induction t with
  | leaf ch => rfl
  | node d b l r ihl ihr => simp [mapInner, ihl, ihr]

/-! ## Positions -/

/-- A node passed on the way down: its data and bit, the side taken and the other child. -/
structure Crumb (β α : Type*) where
  d : β
  b : Nat
  right : Bool
  sib : PTree β α

/-- The node of a crumb, with `t` on the side taken. -/
def Crumb.fill (c : Crumb β α) (t : PTree β α) : PTree β α :=
  if c.right then node c.d c.b c.sib t else node c.d c.b t c.sib

/-- The tree around a position. -/
def plug : List (Crumb β α) → PTree β α → PTree β α
  | [], t => t
  | c :: cs, t => plug cs (c.fill t)

/-- The entries left of the position's node when the side taken holds `A`. -/
def Crumb.lefts (c : Crumb β α) (A : List α) : List α := if c.right then c.sib.members else A

def Crumb.rights (c : Crumb β α) (A : List α) : List α := if c.right then A else c.sib.members

/-- The least bit a node at the position may test. -/
def floor : List (Crumb β α) → Nat
  | [] => 0
  | c :: _ => c.b + 1

/-- The entries outside the position. -/
def outside (cs : List (Crumb β α)) : List α := cs.flatMap (·.sib.members)

@[simp] theorem floor_nil : floor ([] : List (Crumb β α)) = 0 := rfl

@[simp] theorem floor_cons (c : Crumb β α) (cs : List (Crumb β α)) : floor (c :: cs) = c.b + 1 := rfl

@[simp] theorem outside_nil : outside ([] : List (Crumb β α)) = [] := rfl

@[simp] theorem outside_cons (c : Crumb β α) (cs : List (Crumb β α)) :
    outside (c :: cs) = c.sib.members ++ outside cs := rfl

@[simp] theorem plug_nil (t : PTree β α) : plug [] t = t := rfl

@[simp] theorem plug_cons (c : Crumb β α) (cs : List (Crumb β α)) (t : PTree β α) :
    plug (c :: cs) t = plug cs (c.fill t) := rfl

theorem members_fill (c : Crumb β α) (t : PTree β α) :
    (c.fill t).members = c.lefts t.members ++ c.rights t.members := by
  cases h : c.right <;> simp [Crumb.fill, Crumb.lefts, Crumb.rights, h]

theorem mem_sides {c : Crumb β α} {A : List α} {x : α} :
    x ∈ c.lefts A ++ c.rights A ↔ x ∈ A ∨ x ∈ c.sib.members := by
  cases h : c.right
  · simp [Crumb.lefts, Crumb.rights, h]
  · simp [Crumb.lefts, Crumb.rights, h, or_comm]

theorem perm_sides (c : Crumb β α) (A : List α) : (c.lefts A ++ c.rights A).Perm (A ++ c.sib.members) := by
  cases h : c.right
  · simp [Crumb.lefts, Crumb.rights, h]
  · simp [Crumb.lefts, Crumb.rights, h, List.perm_append_comm]

theorem perm_plug (cs : List (Crumb β α)) (t : PTree β α) :
    (plug cs t).members.Perm (t.members ++ outside cs) := by
  induction cs generalizing t with
  | nil => simp
  | cons c cs ih =>
    refine (ih (c.fill t)).trans ?_
    rw [members_fill, outside_cons, ← List.append_assoc]
    exact (perm_sides c t.members).append_right _

theorem mem_plug {cs : List (Crumb β α)} {t : PTree β α} {x : α} :
    x ∈ (plug cs t).members ↔ x ∈ t.members ∨ x ∈ outside cs := by
  rw [(perm_plug cs t).mem_iff, List.mem_append]

/-- The data on the path to a position and beside it. -/
def around (cs : List (Crumb β α)) : List β := cs.flatMap fun c => c.d :: c.sib.inner

@[simp] theorem around_nil : around ([] : List (Crumb β α)) = [] := rfl

@[simp] theorem around_cons (c : Crumb β α) (cs : List (Crumb β α)) :
    around (c :: cs) = c.d :: (c.sib.inner ++ around cs) := rfl

theorem inner_fill (c : Crumb β α) (t : PTree β α) : (c.fill t).inner.Perm (c.d :: (t.inner ++ c.sib.inner)) := by
  cases h : c.right
  · simp [Crumb.fill, h]
  · simp [Crumb.fill, h, List.perm_append_comm]

theorem inner_plug (cs : List (Crumb β α)) (t : PTree β α) : (plug cs t).inner.Perm (t.inner ++ around cs) := by
  induction cs generalizing t with
  | nil => simp
  | cons c cs ih =>
    refine (ih (c.fill t)).trans (((inner_fill c t).append_right _).trans ?_)
    simp only [around_cons, List.cons_append, List.append_assoc]
    exact List.perm_middle.symm

/-- The buckets outside a position. -/
def beside (cs : List (Crumb β α)) : List (List α) := cs.flatMap (·.sib.buckets)

@[simp] theorem beside_nil : beside ([] : List (Crumb β α)) = [] := rfl

@[simp] theorem beside_cons (c : Crumb β α) (cs : List (Crumb β α)) :
    beside (c :: cs) = c.sib.buckets ++ beside cs := rfl

theorem buckets_plug (cs : List (Crumb β α)) (t : PTree β α) :
    (plug cs t).buckets.Perm (t.buckets ++ beside cs) := by
  induction cs generalizing t with
  | nil => simp
  | cons c cs ih =>
    refine (ih (c.fill t)).trans ?_
    rw [beside_cons, ← List.append_assoc]
    refine List.Perm.append_right _ ?_
    cases h : c.right
    · simp [Crumb.fill, h]
    · simp [Crumb.fill, h, List.perm_append_comm]

/-! ## Search -/

/-- Follow the bits of `k` down to a bucket, keeping the way back. -/
def descend (k : Nat → Bool) : PTree β α → List (Crumb β α) → List (Crumb β α) × List α
  | leaf ch, cs => (cs, ch)
  | node d b l r, cs =>
    if k b then descend k r (⟨d, b, true, l⟩ :: cs) else descend k l (⟨d, b, false, r⟩ :: cs)

/-- The same, but only past nodes that test a bit before `b`. -/
def descendTo (k : Nat → Bool) (b : Nat) : PTree β α → List (Crumb β α) → List (Crumb β α) × PTree β α
  | leaf ch, cs => (cs, leaf ch)
  | node d c l r, cs =>
    if c < b then
      if k c then descendTo k b r (⟨d, c, true, l⟩ :: cs) else descendTo k b l (⟨d, c, false, r⟩ :: cs)
    else (cs, node d c l r)

theorem plug_descend (k : Nat → Bool) (t : PTree β α) (cs : List (Crumb β α)) :
    plug (descend k t cs).1 (leaf (descend k t cs).2) = plug cs t := by
  induction t generalizing cs with
  | leaf ch => rfl
  | node d b l r ihl ihr =>
    by_cases h : k b
    · simp [descend, h, ihr, Crumb.fill]
    · simp [descend, h, ihl, Crumb.fill]

theorem plug_descendTo (k : Nat → Bool) (b : Nat) (t : PTree β α) (cs : List (Crumb β α)) :
    plug (descendTo k b t cs).1 (descendTo k b t cs).2 = plug cs t := by
  induction t generalizing cs with
  | leaf ch => rfl
  | node d c l r ihl ihr =>
    by_cases hc : c < b
    · by_cases h : k c
      · simp [descendTo, hc, h, ihr, Crumb.fill]
      · simp [descendTo, hc, h, ihl, Crumb.fill]
    · simp [descendTo, hc]

theorem descend_descendTo (k : Nat → Bool) (b : Nat) (t : PTree β α) (cs : List (Crumb β α)) :
    descend k (descendTo k b t cs).2 (descendTo k b t cs).1 = descend k t cs := by
  induction t generalizing cs with
  | leaf ch => rfl
  | node d c l r ihl ihr =>
    by_cases hc : c < b
    · by_cases h : k c
      · simp [descendTo, descend, hc, h, ihr]
      · simp [descendTo, descend, hc, h, ihl]
    · simp [descendTo, hc]

theorem descendTo_path (k : Nat → Bool) (b : Nat) (t : PTree β α) (cs : List (Crumb β α)) :
    ∃ pre, (descendTo k b t cs).1 = pre ++ cs := by
  induction t generalizing cs with
  | leaf ch => exact ⟨[], rfl⟩
  | node d c l r ihl ihr =>
    by_cases hc : c < b
    · by_cases h : k c
      · obtain ⟨pre, hpre⟩ := ihr (⟨d, c, true, l⟩ :: cs)
        exact ⟨pre ++ [⟨d, c, true, l⟩], by simp [descendTo, hc, h, hpre]⟩
      · obtain ⟨pre, hpre⟩ := ihl (⟨d, c, false, r⟩ :: cs)
        exact ⟨pre ++ [⟨d, c, false, r⟩], by simp [descendTo, hc, h, hpre]⟩
    · exact ⟨[], by simp [descendTo, hc]⟩

/-- The shortened search stops at a bucket or a node that tests `b` or a later bit, below such that test earlier ones. -/
theorem descendTo_stop {k : Nat → Bool} {b : Nat} {t : PTree β α} (cs : List (Crumb β α)) (h : floor cs ≤ b) :
    floor (descendTo k b t cs).1 ≤ b ∧ ∀ d c l r, (descendTo k b t cs).2 = node d c l r → b ≤ c := by
  induction t generalizing cs with
  | leaf ch => exact ⟨h, fun d c l r he => by cases he⟩
  | node d c l r ihl ihr =>
    rw [descendTo]
    by_cases hc : c < b
    · rw [if_pos hc]
      split
      · exact ihr _ hc
      · exact ihl _ hc
    · rw [if_neg hc]
      refine ⟨h, ?_⟩
      intro d' c' l' r' he
      cases he
      omega

theorem descend_subset (k : Nat → Bool) (t : PTree β α) (cs : List (Crumb β α)) :
    ∀ x ∈ (descend k t cs).2, x ∈ t.members := by
  induction t generalizing cs with
  | leaf ch => exact fun x hx => hx
  | node d b l r ihl ihr =>
    intro x hx
    by_cases h : k b
    · rw [descend, if_pos h] at hx
      exact List.mem_append_right _ (ihr _ x hx)
    · rw [descend, if_neg h] at hx
      exact List.mem_append_left _ (ihl _ x hx)

/-! ## Local invariants -/

section Holds
variable (P : Nat → Nat → β → List α → List α → Prop) (Q : Nat → List α → Prop)

/-- `P` at every node and `Q` at every bucket, with bits that grow downwards from `lo` on. -/
def Holds : Nat → PTree β α → Prop
  | lo, leaf ch => Q lo ch
  | lo, node d b l r => lo ≤ b ∧ P lo b d l.members r.members ∧ Holds (b + 1) l ∧ Holds (b + 1) r

/-- The part of `Holds` outside a position that holds the entries `A`. -/
def CtxHolds : List (Crumb β α) → List α → Prop
  | [], _ => True
  | c :: cs, A => floor cs ≤ c.b ∧ P (floor cs) c.b c.d (c.lefts A) (c.rights A) ∧ Holds P Q (c.b + 1) c.sib ∧
      CtxHolds cs (c.lefts A ++ c.rights A)

variable {P Q}

theorem holds_fill {lo : Nat} {c : Crumb β α} {t : PTree β α} :
    Holds P Q lo (c.fill t) ↔ lo ≤ c.b ∧ P lo c.b c.d (c.lefts t.members) (c.rights t.members) ∧
      Holds P Q (c.b + 1) c.sib ∧ Holds P Q (c.b + 1) t := by
  cases h : c.right
  · simp only [Crumb.fill, Crumb.lefts, Crumb.rights, h, Bool.false_eq_true, if_false, Holds]
    tauto
  · simp only [Crumb.fill, Crumb.lefts, Crumb.rights, h, if_true, Holds]

theorem holds_plug {cs : List (Crumb β α)} {t : PTree β α} :
    Holds P Q 0 (plug cs t) ↔ Holds P Q (floor cs) t ∧ CtxHolds P Q cs t.members := by
  induction cs generalizing t with
  | nil => simp [CtxHolds]
  | cons c cs ih =>
    rw [plug_cons, ih, holds_fill, floor_cons, CtxHolds, members_fill]
    tauto

/-- The nodes on the way to a position, each changed by a function of the bits around it. -/
def mapPath (f : Nat → Nat → β → β) : List (Crumb β α) → List (Crumb β α)
  | [] => []
  | c :: cs => { c with d := f (floor cs) c.b c.d } :: mapPath f cs

@[simp] theorem floor_mapPath (f : Nat → Nat → β → β) (cs : List (Crumb β α)) : floor (mapPath f cs) = floor cs := by
  cases cs <;> rfl

@[simp] theorem outside_mapPath (f : Nat → Nat → β → β) (cs : List (Crumb β α)) :
    outside (mapPath f cs) = outside cs := by
  induction cs with
  | nil => rfl
  | cons c cs ih => simp [mapPath, ih]

@[simp] theorem beside_mapPath (f : Nat → Nat → β → β) (cs : List (Crumb β α)) :
    beside (mapPath f cs) = beside cs := by
  induction cs with
  | nil => rfl
  | cons c cs ih => simp [mapPath, ih]

theorem around_mapPath {γ : Type*} {g : β → γ} {f : Nat → Nat → β → β} (h : ∀ lo b d, g (f lo b d) = g d)
    (cs : List (Crumb β α)) : (around (mapPath f cs)).map g = (around cs).map g := by
  induction cs with
  | nil => rfl
  | cons c cs ih => simp [mapPath, h, ih]

/-- The bits tested on a path grow downwards. -/
def Rising : List (Crumb β α) → Prop
  | [] => True
  | c :: cs => floor cs ≤ c.b ∧ Rising cs

theorem CtxHolds.rising {cs : List (Crumb β α)} {A : List α} (h : CtxHolds P Q cs A) : Rising cs := by
  induction cs generalizing A with
  | nil => trivial
  | cons c cs ih => exact ⟨h.1, ih h.2.2.2⟩

theorem Rising.lt_floor {cs : List (Crumb β α)} (h : Rising cs) : ∀ c ∈ cs, c.b < floor cs := by
  induction cs with
  | nil => simp
  | cons c' cs ih =>
    intro c hc
    rcases List.mem_cons.1 hc with rfl | hc
    · exact Nat.lt_succ_self _
    · have hlt := ih h.2 c hc
      have hle := h.1
      rw [floor_cons]
      omega

theorem mapPath_same {f : Nat → Nat → β → β} {cs : List (Crumb β α)} (h : ∀ c ∈ cs, ∀ lo d, f lo c.b d = d) :
    mapPath f cs = cs := by
  induction cs with
  | nil => rfl
  | cons c cs ih =>
    rw [mapPath, h c List.mem_cons_self, ih fun c' hc' => h c' (List.mem_cons_of_mem c hc')]

/-- A local invariant survives an edit of the entries at a position when each node above,
changed by `f`, still meets its part; `G` is what is known of all entries, `K` of the nodes
above, and `B` bounds the path. -/
theorem CtxHolds.update {f : Nat → Nat → β → β} {E : List α → List α → Prop} {G : α → Prop} {K : Crumb β α → Prop}
    {B : Nat}
    (happ : ∀ A A' (c : Crumb β α), K c → E A A' → E (c.lefts A ++ c.rights A) (c.lefts A' ++ c.rights A'))
    (hP : ∀ lo d A A' (c : Crumb β α), K c → c.b < B → (∀ x ∈ c.lefts A ++ c.rights A, G x) →
      P lo c.b d (c.lefts A) (c.rights A) → E A A' → P lo c.b (f lo c.b d) (c.lefts A') (c.rights A'))
    {cs : List (Crumb β α)} {A A' : List α} (hB : floor cs ≤ B) (hK : ∀ c ∈ cs, K c) (hG : ∀ x ∈ A ++ outside cs, G x)
    (h : CtxHolds P Q cs A) (hr : E A A') : CtxHolds P Q (mapPath f cs) A' := by
  induction cs generalizing A A' with
  | nil => trivial
  | cons c cs ih =>
    obtain ⟨hlo, hp, hsib, hcs⟩ := h
    have hin : ∀ x ∈ c.lefts A ++ c.rights A, G x := by
      intro x hx
      apply hG
      rcases mem_sides.1 hx with hx | hx
      · exact List.mem_append_left _ hx
      · exact List.mem_append_right _ (List.mem_append_left _ hx)
    have hout : ∀ x ∈ (c.lefts A ++ c.rights A) ++ outside cs, G x := by
      intro x hx
      rcases List.mem_append.1 hx with hx | hx
      · exact hin x hx
      · exact hG x (List.mem_append_right _ (List.mem_append_right _ hx))
    have hc : c.b < B := hB
    have hKc := hK c List.mem_cons_self
    have hKs : ∀ c' ∈ cs, K c' := fun c' hc' => hK c' (List.mem_cons_of_mem c hc')
    refine ⟨by rw [floor_mapPath]; exact hlo, ?_, hsib, ih (by omega) hKs hout hcs (happ A A' c hKc hr)⟩
    rw [floor_mapPath]
    exact hP _ _ A A' c hKc hc hin hp hr

/-- What the invariant says of a node on the path: it holds of entries between those at the
position and all of them. -/
theorem CtxHolds.node {cs : List (Crumb β α)} {A : List α} {c : Crumb β α} (h : CtxHolds P Q cs A) (hc : c ∈ cs) :
    ∃ lo A', lo ≤ c.b ∧ c.b < floor cs ∧ (∀ x ∈ A, x ∈ A') ∧ (∀ x ∈ A', x ∈ A ∨ x ∈ outside cs) ∧
      P lo c.b c.d (c.lefts A') (c.rights A') := by
  induction cs generalizing A with
  | nil => cases hc
  | cons c' cs ih =>
    obtain ⟨hlo, hp, -, hcs⟩ := h
    rcases List.mem_cons.1 hc with rfl | hc
    · exact ⟨_, A, hlo, Nat.lt_succ_self _, fun x hx => hx, fun x hx => .inl hx, hp⟩
    · obtain ⟨lo, A', h1, h2, hin, hout, hp'⟩ := ih hcs hc
      refine ⟨lo, A', h1, by rw [floor_cons]; omega, fun x hx => hin x (mem_sides.2 (.inl hx)), ?_, hp'⟩
      intro x hx
      rw [outside_cons, List.mem_append]
      rcases hout x hx with hx | hx
      · rcases mem_sides.1 hx with hx | hx
        · exact .inl hx
        · exact .inr (.inl hx)
      · exact .inr (.inr hx)

/-- Changes of the data that `P` does not see. -/
theorem holds_mapInner {f : β → β} (hf : ∀ lo b d L R, P lo b d L R → P lo b (f d) L R) {lo : Nat} {t : PTree β α}
    (h : Holds P Q lo t) : Holds P Q lo (t.mapInner f) := by
  induction t generalizing lo with
  | leaf ch => exact h
  | node d b l r ihl ihr =>
    obtain ⟨hlo, hp, hl, hr⟩ := h
    refine ⟨hlo, ?_, ihl hl, ihr hr⟩
    rw [members_mapInner, members_mapInner]
    exact hf _ _ _ _ _ hp

theorem holds_bucket {k : Nat → Bool} {lo : Nat} {t : PTree β α} (h : Holds P Q lo t) (cs : List (Crumb β α)) :
    ∃ lo', Q lo' (descend k t cs).2 := by
  induction t generalizing lo cs with
  | leaf ch => exact ⟨lo, h⟩
  | node d b l r ihl ihr =>
    rw [descend]
    split
    · exact ihr h.2.2.2 _
    · exact ihl h.2.2.1 _

theorem holds_descend {k : Nat → Bool} {t : PTree β α} (h : Holds P Q 0 t) :
    Q (floor (descend k t []).1) (descend k t []).2 ∧ CtxHolds P Q (descend k t []).1 (descend k t []).2 := by
  have hp := plug_descend k t []
  rw [plug_nil] at hp
  rw [← hp] at h
  exact holds_plug.1 h

end Holds

/-! ## Keys -/

section Keys
variable (bits : α → Nat → Bool) (n0 : Nat)

/-- `x` and `y` have the same bits from `n0` up to `i`. -/
def Agree (k k' : Nat → Bool) (i : Nat) : Prop := ∀ j, n0 ≤ j → j < i → k j = k' j

/-- The entries of a node that tests bit `b` agree before `b` and are divided by it. -/
structure Divides (b : Nat) (L R : List α) : Prop where
  agree : ∀ x ∈ L ++ R, ∀ y ∈ L ++ R, Agree n0 (bits x) (bits y) b
  left : ∀ x ∈ L, bits x b = false
  right : ∀ x ∈ R, bits x b = true

variable {bits n0}

theorem Agree.symm {k k' : Nat → Bool} {i : Nat} (h : Agree n0 k k' i) : Agree n0 k' k i :=
  fun j h0 hj => (h j h0 hj).symm

theorem Agree.trans {k k' k'' : Nat → Bool} {i : Nat} (h : Agree n0 k k' i) (h' : Agree n0 k' k'' i) :
    Agree n0 k k'' i := fun j h0 hj => (h j h0 hj).trans (h' j h0 hj)

theorem Agree.mono {k k' : Nat → Bool} {i j : Nat} (h : Agree n0 k k' i) (hj : j ≤ i) : Agree n0 k k' j :=
  fun l h0 hl => h l h0 (by omega)

/-- A node keeps dividing its entries when those on one side change to some with the same bits. -/
theorem Divides.replace {b : Nat} {c : Crumb β α} {A A' : List α} (h0 : n0 ≤ b)
    (h : Divides bits n0 b (c.lefts A) (c.rights A))
    (hA : ∀ x' ∈ A', ∃ x ∈ A, Agree n0 (bits x') (bits x) (b + 1)) : Divides bits n0 b (c.lefts A') (c.rights A') := by
  have hside : ∀ x' ∈ c.lefts A' ++ c.rights A', ∃ x ∈ c.lefts A ++ c.rights A, Agree n0 (bits x') (bits x) (b + 1) := by
    intro x' hx'
    rcases mem_sides.1 hx' with hx | hx
    · obtain ⟨x, hx, hag⟩ := hA x' hx
      exact ⟨x, mem_sides.2 (.inl hx), hag⟩
    · exact ⟨x', mem_sides.2 (.inr hx), fun j _ _ => rfl⟩
  refine ⟨?_, ?_, ?_⟩
  · intro x' hx' y' hy'
    obtain ⟨x, hx, hxa⟩ := hside x' hx'
    obtain ⟨y, hy, hya⟩ := hside y' hy'
    exact ((hxa.mono (Nat.le_succ b)).trans (h.agree x hx y hy)).trans (hya.mono (Nat.le_succ b)).symm
  · intro x' hx'
    cases hr : c.right
    · rw [Crumb.lefts, hr] at hx'
      obtain ⟨x, hx, hag⟩ := hA x' hx'
      rw [hag b h0 (Nat.lt_succ_self b)]
      exact h.left x (by rw [Crumb.lefts, hr]; exact hx)
    · rw [Crumb.lefts, hr] at hx'
      exact h.left x' (by rw [Crumb.lefts, hr]; exact hx')
  · intro x' hx'
    cases hr : c.right
    · rw [Crumb.rights, hr] at hx'
      exact h.right x' (by rw [Crumb.rights, hr]; exact hx')
    · rw [Crumb.rights, hr] at hx'
      obtain ⟨x, hx, hag⟩ := hA x' hx'
      rw [hag b h0 (Nat.lt_succ_self b)]
      exact h.right x (by rw [Crumb.rights, hr]; exact hx)

theorem Divides.found {d : β} {b : Nat} {l r : PTree β α} (h : Divides bits n0 b l.members r.members)
    {k : Nat → Bool} {cs : List (Crumb β α)} {x : α} (hx : x ∈ (descend k (node d b l r) cs).2) : bits x b = k b := by
  rw [descend] at hx
  cases hk : k b with
  | true =>
    rw [hk] at hx
    exact h.right x (descend_subset k r _ x hx)
  | false =>
    rw [hk] at hx
    exact h.left x (descend_subset k l _ x hx)

variable {P : Nat → Nat → β → List α → List α → Prop} {Q : Nat → List α → Prop}

/-- The search for the bits of an entry ends in its bucket. -/
theorem mem_descend {N : Nat} (hP : ∀ lo b d L R, P lo b d L R → Divides bits n0 b L R ∧ n0 ≤ b ∧ b < N)
    {k : Nat → Bool} {t : PTree β α} {lo : Nat} (h : Holds P Q lo t) (cs : List (Crumb β α)) {e : α}
    (he : e ∈ t.members) (hk : Agree n0 (bits e) k N) : e ∈ (descend k t cs).2 := by
  induction t generalizing lo cs with
  | leaf ch => exact he
  | node d b l r ihl ihr =>
    obtain ⟨-, hp, hl, hr⟩ := h
    obtain ⟨hd, h0, hN⟩ := hP _ _ _ _ _ hp
    have hb := hk b h0 hN
    rw [descend]
    rcases List.mem_append.1 he with hel | her
    · rw [if_neg (by rw [← hb, hd.left e hel]; simp)]
      exact ihl hl _ hel
    · rw [if_pos (by rw [← hb, hd.right e her])]
      exact ihr hr _ her

/-- Entries with the same bits are in one bucket. -/
theorem mem_bucket {N : Nat} (hP : ∀ lo b d L R, P lo b d L R → Divides bits n0 b L R ∧ n0 ≤ b ∧ b < N)
    {k : Nat → Bool} {t : PTree β α} {lo : Nat} (h : Holds P Q lo t) (cs : List (Crumb β α)) {e x : α}
    (he : e ∈ t.members) (hx : x ∈ (descend k t cs).2) (hag : Agree n0 (bits e) (bits x) N) :
    e ∈ (descend k t cs).2 := by
  induction t generalizing lo cs with
  | leaf ch => exact he
  | node d b l r ihl ihr =>
    obtain ⟨-, hp, hl, hr⟩ := h
    obtain ⟨hd, h0, hN⟩ := hP _ _ _ _ _ hp
    have hb := hag b h0 hN
    rw [hd.found hx] at hb
    rw [descend] at hx ⊢
    rcases List.mem_append.1 he with hel | her
    · have hk : k b = false := by rw [← hb, hd.left e hel]
      rw [if_neg (by simp [hk])] at hx ⊢
      exact ihl hl _ hel hx
    · have hk : k b = true := by rw [← hb, hd.right e her]
      rw [if_pos hk] at hx ⊢
      exact ihr hr _ her hx

/-- No entry shares a longer prefix with the key than the bucket the search ends in. -/
theorem descend_best {N : Nat} (hP : ∀ lo b d L R, P lo b d L R → Divides bits n0 b L R ∧ n0 ≤ b ∧ b < N)
    (hQ : ∀ lo ch, Q lo ch → ∀ x ∈ ch, ∀ y ∈ ch, Agree n0 (bits x) (bits y) N)
    {k : Nat → Bool} {t : PTree β α} {lo : Nat} (h : Holds P Q lo t) (cs : List (Crumb β α)) {e x : α} {i : Nat}
    (he : e ∈ t.members) (hx : x ∈ (descend k t cs).2) (hi : i ≤ N) (hk : Agree n0 (bits e) k i) :
    Agree n0 (bits x) k i := by
  induction t generalizing lo cs with
  | leaf ch => exact ((hQ lo ch h x hx e he).mono hi).trans hk
  | node d b l r ihl ihr =>
    obtain ⟨-, hp, hl, hr⟩ := h
    obtain ⟨hd, h0, -⟩ := hP _ _ _ _ _ hp
    have hxm := descend_subset k _ cs x hx
    -- an entry on the side the search leaves differs from the key at `b`
    have hover : ∀ {s : Bool}, k b = s → bits e b = (!s) → Agree n0 (bits x) k i := by
      intro s hs hes
      have hib : i ≤ b := by
        by_contra hlt
        have hb := hk b h0 (by omega)
        rw [hs, hes] at hb
        cases s <;> simp at hb
      exact ((hd.agree x hxm e he).mono hib).trans hk
    by_cases hkb : k b = true
    · rw [descend, if_pos hkb] at hx
      rcases List.mem_append.1 he with hel | her
      · exact hover hkb (hd.left e hel)
      · exact ihr hr _ her hx
    · rw [descend, if_neg hkb] at hx
      rcases List.mem_append.1 he with hel | her
      · exact ihl hl _ hel hx
      · exact hover (s := false) (by simpa using hkb) (hd.right e her)

end Keys

end PTree
end BsdKernel.Lib
