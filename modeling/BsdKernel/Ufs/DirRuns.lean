import BsdKernel.Ufs.DirEnter
import Mathlib.Data.List.Nodup
/-!
# A directory is a map

`dir_runs`: on a well-formed directory every sequence of creations, removals, rewrites
and lookups runs without a panic, keeps the directory well formed and does to the names
what the same operations do to a finite map. A directory is well formed if every entry
has room for its name: one that is not in use too, since `direnter` copies as many bytes
of it as its name would need (`dead_entry_slides`).
-/

namespace BsdKernel.UfsDir

variable {e : Entry} {p q : List Entry}

/-! ## Operations -/

/-- The operations, each with the `ufs_lookup` that precedes it. -/
inductive Op where
  | create (name : List UInt8) (ino : Nat) (pad : Nat → UInt8)
  | remove (name : List UInt8)
  | rewrite (name : List UInt8) (ino : Nat)
  | lookup (name : List UInt8) (last : Bool)
  | isEmpty (parentino : Nat)

inductive Answer where
  | done
  | EEXIST
  | ENOENT
  | ino (n : Nat)
  | empty (b : Bool)
  deriving DecidableEq, Repr

def step (fs : Fs) (dir : Dir) : Op → Except Panic (Dir × Answer)
  | .create name ino pad =>
    match ufsLookup fs dir .CREATE true name with
    | (_, .panic) => .error .badDir
    | (dir, .found _) => .ok (dir, .EEXIST)
    | (dir, .ENOENT slot) => (direnter fs dir slot ino name pad).map fun dir => (dir, .done)
  | .remove name =>
    match ufsLookup fs dir .DELETE true name with
    | (_, .panic) => .error .badDir
    | (dir, .found f) => .ok (dirremove dir f, .done)
    | (dir, .ENOENT _) => .ok (dir, .ENOENT)
  | .rewrite name ino =>
    match ufsLookup fs dir .RENAME true name with
    | (_, .panic) => .error .badDir
    | (dir, .found f) => .ok (dirrewrite dir f ino, .done)
    | (dir, .ENOENT _) => .ok (dir, .ENOENT)
  | .lookup name last =>
    match ufsLookup fs dir .LOOKUP last name with
    | (_, .panic) => .error .badDir
    | (dir, .found f) => .ok (dir, .ino f.ino)
    | (dir, .ENOENT _) => .ok (dir, .ENOENT)
  | .isEmpty parentino => .ok (dir, .empty (dirempty dir parentino))

/-- A sequence of operations, and their answers. -/
def run (fs : Fs) (dir : Dir) : List Op → Except Panic (Dir × List Answer)
  | [] => .ok (dir, [])
  | op :: ops => do
    let (dir, a) ← step fs dir op
    let (dir, as) ← run fs dir ops
    return (dir, a :: as)

/-- The names and inodes that the operations are given. -/
def Op.Valid : Op → Prop
  | .create name ino _ => Nameable ino name
  | .rewrite _ ino => 0 < ino ∧ ino < 4294967296
  | _ => True

/-! ## The map -/

/-- The entries from `off` on. -/
def walk (d : Bytes) (stop : Nat) : Nat → Nat → List Entry
  | 0, _ => []
  | fuel + 1, off => if off < stop then entryAt d off :: walk d stop fuel (off + dReclen d off) else []

def Dir.entries (dir : Dir) : List Entry := walk dir.bytes dir.size dir.size 0

/-- The names with their inodes. -/
def pairs (es : List Entry) : List (List UInt8 × Nat) := (es.filter Entry.live).map fun e => (e.name, e.ino)

/-- The inode of a name. -/
def Dir.map (dir : Dir) (name : List UInt8) : Option Nat := (pairs dir.entries).lookup name

/-- The directory is tiled by good entries with different names. -/
structure WellFormed (fs : Fs) (dir : Dir) : Prop where
  laid : Laid fs dir.bytes 0 dir.entries dir.size
  size : dir.size % DIRBLKSIZ = 0
  names : ((pairs dir.entries).map Prod.fst).Nodup
  diroff : dir.diroff % DIRBLKSIZ = 0

/-- What an operation does to a finite map and answers. -/
def Spec (m m' : List UInt8 → Option Nat) : Op → Answer → Prop
  | .create name ino _, a =>
    (m name = none ∧ m' = Function.update m name (some ino) ∧ a = .done) ∨ (m name ≠ none ∧ m' = m ∧ a = .EEXIST)
  | .remove name, a => (m name ≠ none ∧ m' = Function.update m name none ∧ a = .done) ∨ (m name = none ∧ m' = m ∧ a = .ENOENT)
  | .rewrite name ino, a =>
    (m name ≠ none ∧ m' = Function.update m name (some ino) ∧ a = .done) ∨ (m name = none ∧ m' = m ∧ a = .ENOENT)
  | .lookup name _, a => m' = m ∧ ((∃ i, m name = some i ∧ a = .ino i) ∨ (m name = none ∧ a = .ENOENT))
  | .isEmpty parentino, a => m' = m ∧ ∃ b, a = .empty b ∧
      (b = true ↔ ∀ name i, m name = some i → name = [46] ∨ name = [46, 46] ∧ i = parentino)

/-- What a sequence of operations does to a finite map. -/
inductive SpecRun : (List UInt8 → Option Nat) → List Op → (List UInt8 → Option Nat) → List Answer → Prop
  | nil (m : List UInt8 → Option Nat) : SpecRun m [] m []
  | cons {m m' m'' : List UInt8 → Option Nat} {op : Op} {ops : List Op} {a : Answer} {as : List Answer}
      (h : Spec m m' op a) (hrest : SpecRun m' ops m'' as) : SpecRun m (op :: ops) m'' (a :: as)

section Map
variable {fs : Fs} {d : Bytes} {a b : Nat} {es : List Entry}

theorem Laid.walk (h : Laid fs d a es b) {fuel : Nat} (hfuel : es.length ≤ fuel) : walk d b fuel a = es := by
  induction es generalizing a fuel with
  | nil =>
    obtain rfl : a = b := h
    cases fuel with
    | zero => rfl
    | succ fuel => rw [UfsDir.walk, if_neg (Nat.lt_irrefl a)]
  | cons e es ih =>
    obtain ⟨he, hg, hrest⟩ := h
    have hpos := hg.pos
    have hle := hrest.le
    have hreclen : dReclen d a = e.reclen := by rw [← he]; rfl
    rw [List.length_cons] at hfuel
    obtain ⟨fuel, rfl⟩ : ∃ n, fuel = n + 1 := ⟨fuel - 1, by omega⟩
    rw [UfsDir.walk, if_pos (by omega), he, hreclen, ih hrest (by omega)]

theorem Laid.entries {dir : Dir} (h : Laid fs dir.bytes 0 es dir.size) : dir.entries = es :=
  h.walk (by have := h.length_le; omega)

theorem pairs_append (es₁ es₂ : List Entry) : pairs (es₁ ++ es₂) = pairs es₁ ++ pairs es₂ := by simp [pairs]

theorem pairs_live (h : e.live = true) (es : List Entry) : pairs (e :: es) = (e.name, e.ino) :: pairs es := by
  simp [pairs, h]

theorem pairs_dead (h : e.live = false) (es : List Entry) : pairs (e :: es) = pairs es := by
  simp [pairs, h]

theorem pairs_packed (r : List Entry) : pairs (packed r) = pairs r := by
  induction r with
  | nil => rfl
  | cons e r ih =>
    cases hl : e.live with
    | true =>
      have hcons : packed (e :: r) = e.trim :: packed r := by rw [packed_cons, packed_live hl]; rfl
      have htrim : e.trim.live = true := hl
      rw [hcons, pairs_live htrim, pairs_live hl, ih]
      rfl
    | false =>
      rw [packed_cons, packed_dead hl, pairs_dead hl]
      exact ih

variable {A B : List (List UInt8 × Nat)} {name : List UInt8} {i : Nat}

theorem lookup_eq_none {A : List (List UInt8 × Nat)} : A.lookup name = none ↔ name ∉ A.map Prod.fst := by
  induction A with
  | nil => simp
  | cons x A ih =>
    rw [List.lookup_cons]
    by_cases hx : name = x.1
    · simp [hx]
    · have : (name == x.1) = false := by simpa using hx
      simp [this, ih, hx]

/-- A name in a list with others. -/
theorem lookup_insert (hno : name ∉ A.map Prod.fst) (n : List UInt8) :
    (A ++ (name, i) :: B).lookup n = Function.update (fun n => (A ++ B).lookup n) name (some i) n := by
  rw [Function.update_apply]
  induction A with
  | nil =>
    rw [List.nil_append, List.lookup_cons]
    by_cases hn : n = name
    · simp [hn]
    · have : (n == name) = false := by simpa using hn
      simp [this, hn]
  | cons x A ih =>
    have hx : name ≠ x.1 := fun h => hno (by simp [h])
    have hA : name ∉ A.map Prod.fst := fun h => hno (by simp only [List.map_cons]; exact List.mem_cons_of_mem _ h)
    rw [List.cons_append, List.cons_append, List.lookup_cons, List.lookup_cons]
    by_cases hn : n = x.1
    · simp [hn, hx.symm]
    · have : (n == x.1) = false := by simpa using hn
      simp only [this]
      exact ih hA

end Map

/-! ## Lookups -/

section Lookups
variable {fs : Fs} {dir : Dir} {es : List Entry}

theorem roundup_spec (x : Nat) : x ≤ roundup x DIRBLKSIZ ∧ roundup x DIRBLKSIZ % DIRBLKSIZ = 0 ∧
    roundup x DIRBLKSIZ < x + DIRBLKSIZ := by
  unfold roundup DIRBLKSIZ
  omega

theorem roundup_eq {x : Nat} (h : x % DIRBLKSIZ = 0) : roundup x DIRBLKSIZ = x := by
  unfold roundup
  unfold DIRBLKSIZ at *
  omega

theorem roundup_le {x y : Nat} (h : x ≤ y) (hy : y % DIRBLKSIZ = 0) : roundup x DIRBLKSIZ ≤ y := by
  unfold roundup
  unfold DIRBLKSIZ at *
  omega

/-- The search of a well-formed directory. -/
theorem WellFormed.search (h : WellFormed fs dir) (flag : Flag) (last : Bool) (name : List UInt8) :
    (∃ s p e q, searchDir fs dir flag last name = .found s (len p) ∧ dir.entries = p ++ e :: q ∧ e.live = true ∧
      e.name = name ∧ (flag ≠ .LOOKUP → ∀ p' l, p = p' ++ [l] → s.prevoff = len p')) ∨
    ∃ s, searchDir fs dir flag last name = .notfound s ∧ (∀ e ∈ dir.entries, e.live = true → e.name ≠ name) ∧
      (flag ≠ .LOOKUP → Passed dir.entries s) ∧
      (flag = .CREATE → last = true → SlotInv (DIRSIZ name.length) dir.entries s) := by
  have hend := roundup_eq h.size
  have hfuel := h.laid.length_le
  unfold searchDir
  simp only [hend]
  generalize hs : (Scan.mk (if (flag = .CREATE ∨ flag = .RENAME) ∧ last = true then .NONE else .FOUND) none 0 0 0 0) = s
  have hzero : s.enduseful = 0 := by rw [← hs]
  by_cases hone : flag ≠ .LOOKUP ∨ dir.diroff = 0 ∨ dir.diroff > dir.size
  · rw [if_pos hone, searchloop_eq h.laid (by omega)]
    rcases scan_spec (Passed.nil s hzero) dir.entries with ⟨s', p, e, q, hscan, hes, hlive, hname, hprev⟩ | ⟨s', hscan, hno, hpass⟩
    · exact .inl ⟨s', p, e, q, hscan, hes, hlive, hname, fun _ => hprev⟩
    · refine .inr ⟨s', hscan, hno, fun _ => hpass, fun hflag hlast => ?_⟩
      have hinit : SlotInv (DIRSIZ name.length) [] s := by
        rw [← hs, hflag, hlast]
        exact rfl
      exact scan_slot hinit h.laid hscan
  · rw [if_neg hone]
    obtain ⟨hflag, hdiroff, hle⟩ : flag = .LOOKUP ∧ dir.diroff ≠ 0 ∧ dir.diroff ≤ dir.size := by
      simp only [not_or, ne_eq, not_not, Nat.not_lt, gt_iff_lt] at hone
      exact hone
    -- the second part of the directory is searched first
    obtain ⟨es₁, es₂, hes, h₁, h₂⟩ := h.laid.split h.diroff (Nat.zero_le _) hle
    have hfuel₁ := h₁.length_le
    have hfuel₂ := h₂.length_le
    have hlen : len es₁ = dir.diroff := by
      have := h₁.end_eq
      omega
    rw [hes, searchloop_eq h₂ (by omega)]
    rcases scan_match name (DIRSIZ name.length) dir.diroff s es₂ with
      ⟨s', p, e, q, hscan, rfl, hlive, hname⟩ | ⟨s', hscan, hno⟩
    · left
      refine ⟨s', es₁ ++ p, e, q, ?_, by rw [List.append_assoc], hlive, hname, fun hf => absurd hflag hf⟩
      rw [hscan, len_append, hlen]
    · rw [hscan]
      simp only
      rw [searchloop_eq h₁ (by omega)]
      rcases scan_match name (DIRSIZ name.length) 0 s' es₁ with
        ⟨s'', p, e, q, hscan', rfl, hlive, hname⟩ | ⟨s'', hscan', hno'⟩
      · left
        refine ⟨s'', p, e, q ++ es₂, ?_, by simp, hlive, hname, fun hf => absurd hflag hf⟩
        rw [hscan', Nat.zero_add]
      · right
        refine ⟨s'', hscan', fun e he => ?_, fun hf => absurd hflag hf, fun hf => by rw [hflag] at hf; cases hf⟩
        rcases List.mem_append.1 he with he | he
        · exact hno' e he
        · exact hno e he

/-- Where `ufs_lookup` has found an entry: the entry before it is in the same block, or there is none. -/
def Before (p : List Entry) (count : Nat) : Prop :=
  (count = 0 ∧ len p % DIRBLKSIZ = 0) ∨ ∃ p' l, p = p' ++ [l] ∧ count = l.reclen ∧ len p % DIRBLKSIZ ≠ 0

/-- Where a new entry can be put: in a fresh block, or in some entries of one block; and no live entry is
behind `endoff`. -/
inductive Place (dir : Dir) (needed : Nat) : Slot → Prop
  | fresh (endoff : Nat) : Place dir needed ⟨dir.size, 0, endoff⟩
  | range {p r q : List Entry} {endoff : Nat} (entries : dir.entries = p ++ r ++ q) (ne : r ≠ []) (free : needed ≤ freeOf r)
      (block : len p % DIRBLKSIZ + len r ≤ DIRBLKSIZ) (aligned : endoff % DIRBLKSIZ = 0) (lower : len p + len r ≤ endoff)
      (upper : endoff ≤ dir.size)
      (useful : ∀ p' e q', dir.entries = p' ++ e :: q' → e.live = true → len p' + e.reclen ≤ endoff) :
      Place dir needed ⟨len p, len r, endoff⟩

theorem map_eq_none_iff (name : List UInt8) : dir.map name = none ↔ ∀ e ∈ dir.entries, e.live = true → e.name ≠ name := by
  rw [Dir.map, lookup_eq_none, pairs]
  simp only [List.map_map, List.mem_map, List.mem_filter, Function.comp_apply, not_exists, not_and]
  constructor
  · intro h e he hlive hname
    exact h e ⟨he, hlive⟩ hname
  · rintro h e ⟨he, hlive⟩ hname
    exact h e he hlive hname

theorem WellFormed.newSlot (h : WellFormed fs dir) {s : Scan} {needed : Nat} (hpass : Passed dir.entries s)
    (hslot : SlotInv needed dir.entries s) : Place dir needed (newSlot dir s) := by
  have hsize : dir.size = len dir.entries := by
    have := h.laid.end_eq
    omega
  have hspace : ∀ o, s.slotoffset = some o → Space needed dir.entries o s.slotsize →
      Place dir needed ⟨s.slotoffset.getD 0, s.slotsize, roundup (max s.enduseful (s.slotoffset.getD 0 + s.slotsize)) DIRBLKSIZ⟩ := by
    intro o ho hsp
    obtain ⟨p, r, q, hes, rfl, hr, hne, hfree, hblock⟩ := hsp.range
    rw [ho, hr, Option.getD_some]
    have hend := hpass.enduseful
    obtain ⟨hge, hmod, -⟩ := roundup_spec (max s.enduseful (len p + len r))
    refine .range hes hne hfree hblock hmod (by omega) (roundup_le ?_ h.size) fun p' e q' he hlive => ?_
    · have hlen : len dir.entries = len p + len r + len q := by rw [hes, len_append, len_append]
      omega
    · have := hpass.useful p' e q' he hlive
      omega
  unfold UfsDir.newSlot
  cases hst : s.slotstatus with
  | NONE =>
    simp only [roundup_eq h.size]
    exact .fresh _
  | COMPACT =>
    simp only [SlotInv, hst] at hslot
    obtain ⟨o, ho, hsp⟩ := hslot
    exact hspace o ho hsp
  | FOUND =>
    simp only [SlotInv, hst] at hslot
    obtain ⟨o, ho, hsp⟩ := hslot
    exact hspace o ho hsp

/-- `ufs_lookup` on a well-formed directory. -/
theorem WellFormed.lookup (h : WellFormed fs dir) (flag : Flag) (last : Bool) (name : List UInt8) :
    (∃ dir' p e q count, ufsLookup fs dir flag last name = (dir', .found ⟨len p, e.ino, e.reclen, count⟩) ∧
      dir'.bytes = dir.bytes ∧ dir'.size = dir.size ∧ dir'.diroff % DIRBLKSIZ = 0 ∧
      dir.entries = p ++ e :: q ∧ e.live = true ∧ e.name = name ∧ (flag ≠ .LOOKUP → dir' = dir ∧ Before p count)) ∨
    ∃ slot, ufsLookup fs dir flag last name = (dir, .ENOENT slot) ∧ dir.map name = none ∧
      (flag = .CREATE → last = true → Place dir (DIRSIZ name.length) slot) := by
  unfold ufsLookup
  rcases h.search flag last name with ⟨s, p, e, q, hs, hes, hlive, hname, hprev⟩ | ⟨s, hs, hno, hpass, hslot⟩
  · left
    have hlaid := h.laid
    rw [hes] at hlaid
    obtain ⟨he, hg, hlp, hlq⟩ := hlaid.mem
    rw [Nat.zero_add] at he hg hlp hlq
    have hle := hlq.le
    have hroom := hg.room
    have hdsize : DIRSIZ (dNamlen dir.bytes (len p)) = e.dsize := by rw [Entry.dsize, ← he, entryAt_namlen]
    have hino : dIno dir.bytes (len p) = e.ino := by rw [← he]; rfl
    have hreclen : dReclen dir.bytes (len p) = e.reclen := by rw [← he]; rfl
    have hmod := Nat.mod_le (len p) fs.bsize
    rw [hs]
    simp only
    rw [hdsize, if_neg (by omega)]
    refine ⟨if last = true ∧ flag = .LOOKUP then { dir with diroff := len p / DIRBLKSIZ * DIRBLKSIZ } else dir, p, e, q,
      if len p % DIRBLKSIZ = 0 then 0 else len p - s.prevoff, ?_, ?_, ?_, ?_, hes, hlive, hname, fun hflag => ⟨?_, ?_⟩⟩
    · split <;> simp only [hino, hreclen]
    · split <;> rfl
    · split <;> rfl
    · split
      · exact Nat.mul_mod_left _ _
      · exact h.diroff
    · rw [if_neg (by tauto)]
    · by_cases hz : len p % DIRBLKSIZ = 0
      · rw [if_pos hz]
        exact .inl ⟨rfl, hz⟩
      · rw [if_neg hz]
        rcases List.eq_nil_or_concat p with rfl | ⟨p', l, hp⟩
        · exact absurd rfl hz
        · rw [List.concat_eq_append] at hp
          refine .inr ⟨p', l, hp, ?_, hz⟩
          rw [hprev hflag p' l hp, hp, len_append, len_cons, len_nil]
          omega
  · right
    rw [hs]
    refine ⟨UfsDir.newSlot dir s, rfl, (map_eq_none_iff name).2 hno, fun hflag hlast => ?_⟩
    exact h.newSlot (hpass (by rw [hflag]; simp)) (hslot hflag hlast)

end Lookups

/-! ## Changes -/

section Changes
variable {fs : Fs} {dir dir' : Dir} {es : List Entry} {name : List UInt8} {ino i : Nat} {A B : List (List UInt8 × Nat)}

theorem wellFormed_of_laid (hl : Laid fs dir.bytes 0 es dir.size) (hsize : dir.size % DIRBLKSIZ = 0)
    (hnames : ((pairs es).map Prod.fst).Nodup) (hoff : dir.diroff % DIRBLKSIZ = 0) :
    WellFormed fs dir ∧ dir.map = fun n => (pairs es).lookup n := by
  have hes := hl.entries
  refine ⟨⟨by rwa [hes], hsize, by rwa [hes], hoff⟩, ?_⟩
  funext n
  rw [Dir.map, hes]

theorem nodup_insert (h : ((A ++ B).map Prod.fst).Nodup) (hno : name ∉ (A ++ B).map Prod.fst) :
    ((A ++ (name, i) :: B).map Prod.fst).Nodup := by
  rw [List.map_append, List.map_cons, List.nodup_middle, ← List.map_append]
  exact List.nodup_cons.2 ⟨hno, h⟩

theorem nodup_erase (h : ((A ++ (name, i) :: B).map Prod.fst).Nodup) :
    ((A ++ B).map Prod.fst).Nodup ∧ name ∉ (A ++ B).map Prod.fst := by
  rw [List.map_append, List.map_cons, List.nodup_middle, ← List.map_append] at h
  obtain ⟨h₁, h₂⟩ := List.nodup_cons.1 h
  exact ⟨h₂, h₁⟩

theorem not_mem_left (h : name ∉ (A ++ B).map Prod.fst) : name ∉ A.map Prod.fst := fun hm =>
  h (by rw [List.map_append]; exact List.mem_append_left _ hm)

theorem map_insert (hno : name ∉ (A ++ B).map Prod.fst) :
    (fun n => (A ++ (name, i) :: B).lookup n) = Function.update (fun n => (A ++ B).lookup n) name (some i) :=
  funext fun n => lookup_insert (not_mem_left hno) n

theorem map_erase (hno : name ∉ (A ++ B).map Prod.fst) :
    (fun n => (A ++ B).lookup n) = Function.update (fun n => (A ++ (name, i) :: B).lookup n) name none := by
  have hnone : (A ++ B).lookup name = none := lookup_eq_none.2 hno
  rw [map_insert hno, Function.update_idem]
  exact (Function.update_eq_self_iff.2 hnone.symm).symm

theorem WellFormed.map_eq (h : WellFormed fs dir) (hes : dir.entries = p ++ e :: q) (hlive : e.live = true) :
    dir.map = (fun n => (pairs p ++ (e.name, e.ino) :: pairs q).lookup n) ∧
      ((pairs p ++ (e.name, e.ino) :: pairs q).map Prod.fst).Nodup := by
  have hp : pairs dir.entries = pairs p ++ (e.name, e.ino) :: pairs q := by rw [hes, pairs_append, pairs_live hlive]
  refine ⟨funext fun n => by rw [Dir.map, hp], ?_⟩
  rw [← hp]
  exact h.names

theorem map_found (h : dir.map = fun n => (A ++ (name, i) :: B).lookup n) (hn : ((A ++ (name, i) :: B).map Prod.fst).Nodup) :
    dir.map name = some i := by
  rw [h]
  simp only
  rw [lookup_insert (not_mem_left (nodup_erase hn).2), Function.update_self]

theorem Laid.replace {d d' : Bytes} {a b : Nat} {e' : Entry} (h : Laid fs d a (p ++ e :: q) b)
    (hreclen : e'.reclen = e.reclen) (he' : entryAt d' (a + len p) = e') (hg : e'.Good fs (a + len p))
    (hbelow : Agree d d' a (a + len p)) (habove : Agree d d' (a + len p + e.reclen) b) :
    Laid fs d' a (p ++ e' :: q) b := by
  obtain ⟨-, -, hp, hq⟩ := h.mem
  rw [laid_append]
  refine ⟨hp.agree hbelow, he', hg, ?_⟩
  rw [hreclen]
  exact hq.agree habove

theorem WellFormed.setIno (h : WellFormed fs dir) (hes : dir.entries = p ++ e :: q) (hlive : e.live = true)
    (hi : i < 4294967296) : Laid fs (setIno dir.bytes (len p) i) 0 (p ++ { e with ino := i } :: q) dir.size := by
  have hlaid := h.laid
  rw [hes] at hlaid
  obtain ⟨he, hg, -, -⟩ := hlaid.mem
  have hpos := hg.pos
  have hz : 0 + len p = len p := Nat.zero_add _
  refine hlaid.replace rfl ?_ ⟨hg.aligned, hg.fits, hg.room, hg.short, fun _ => hg.named hlive, hg.clean⟩ ?_ ?_
  · rw [hz] at he ⊢
    rw [entryAt_setIno hi, he]
  · exact agree_store _ _ (.inl (by omega))
  · exact agree_store _ _ (.inr (by rw [le32_length]; omega))

theorem WellFormed.remove (h : WellFormed fs dir) (hes : dir.entries = p ++ e :: q) (hlive : e.live = true)
    {count : Nat} (hbefore : Before p count) :
    WellFormed fs (dirremove dir ⟨len p, e.ino, e.reclen, count⟩) ∧
      (dirremove dir ⟨len p, e.ino, e.reclen, count⟩).map = Function.update dir.map e.name none := by
  obtain ⟨hmap, hnodup⟩ := h.map_eq hes hlive
  obtain ⟨hnames, hno⟩ := nodup_erase hnodup
  rw [hmap, ← map_erase hno]
  have hlaid := h.laid
  rw [hes] at hlaid
  obtain ⟨he, hg, hp, hq⟩ := hlaid.mem
  have hpos := hg.pos
  have halign := hg.aligned
  have hfits := hg.fits
  rw [Nat.zero_add] at hfits
  unfold dirremove
  rcases hbefore with ⟨rfl, -⟩ | ⟨p', l, rfl, rfl, hin⟩
  · rw [if_pos rfl]
    have hl := h.setIno hes hlive (i := 0) (by decide)
    have hpairs : pairs (p ++ { e with ino := 0 } :: q) = pairs p ++ pairs q := by
      rw [pairs_append, pairs_dead (by simp [Entry.live])]
    rw [← hpairs] at hnames ⊢
    exact wellFormed_of_laid hl h.size hnames h.diroff
  · have hlpos : 12 ≤ l.reclen := by
      rw [laid_append] at hp
      exact hp.2.2.1.pos
    rw [if_neg (by simp only; omega)]
    have hassoc : dir.entries = p' ++ l :: (e :: q) := by rw [hes]; simp
    have hlaid' := h.laid
    rw [hassoc] at hlaid'
    obtain ⟨hl₀, hlg, hp', -⟩ := hlaid'.mem
    have hlfits := hlg.fits
    have hlalign := hlg.aligned
    have hlroom := hlg.room
    rw [Nat.zero_add] at hl₀ hlfits hp'
    have hlen : len (p' ++ [l]) = len p' + l.reclen := by simp
    rw [hlen] at hin hfits
    have hep : len (p' ++ [l]) - l.reclen = len p' := by omega
    have hreclen : dReclen dir.bytes (len p') = l.reclen := by rw [← hl₀]; rfl
    have hpairs : pairs (p' ++ { l with reclen := l.reclen + e.reclen } :: q) = pairs (p' ++ [l]) ++ pairs q := by
      rw [pairs_append, pairs_append]
      cases hll : l.live with
      | true => rw [pairs_live (by exact hll), pairs_live hll]; simp [pairs]
      | false => rw [pairs_dead (by exact hll), pairs_dead hll]; simp [pairs]
    simp only [hep, hreclen]
    rw [← hpairs] at hnames ⊢
    refine wellFormed_of_laid ?_ h.size hnames h.diroff
    -- the entry before it takes the space
    show Laid fs (setReclen dir.bytes (len p') (l.reclen + e.reclen)) 0 _ dir.size
    rw [laid_append, Nat.zero_add]
    unfold DIRBLKSIZ at hlfits hin hfits
    refine ⟨hp'.agree (agree_store _ _ (.inl (by omega))), ?_, ⟨?_, ?_, ?_, hlg.short, hlg.named, hlg.clean⟩, ?_⟩
    · rw [entryAt_setReclen (by omega), hl₀]
    · show (l.reclen + e.reclen) % 4 = 0
      omega
    · show l.reclen + e.reclen ≤ 512 - len p' % 512
      omega
    · show l.dsize ≤ l.reclen + e.reclen
      omega
    · show Laid fs _ (len p' + (l.reclen + e.reclen)) q dir.size
      have hplace : 0 + len (p' ++ [l]) + e.reclen = len p' + (l.reclen + e.reclen) := by omega
      rw [hplace] at hq
      exact hq.agree (agree_store _ _ (.inr (by rw [le16_length]; omega)))

theorem WellFormed.rewrite (h : WellFormed fs dir) (hes : dir.entries = p ++ e :: q) (hlive : e.live = true)
    (count : Nat) (hino : 0 < ino ∧ ino < 4294967296) :
    WellFormed fs (dirrewrite dir ⟨len p, e.ino, e.reclen, count⟩ ino) ∧
      (dirrewrite dir ⟨len p, e.ino, e.reclen, count⟩ ino).map = Function.update dir.map e.name (some ino) := by
  obtain ⟨hmap, hnodup⟩ := h.map_eq hes hlive
  obtain ⟨hnames, hno⟩ := nodup_erase hnodup
  have hpairs : pairs (p ++ { e with ino := ino } :: q) = pairs p ++ (e.name, ino) :: pairs q := by
    rw [pairs_append, pairs_live (by simp [Entry.live]; omega)]
  rw [hmap, map_insert hno, Function.update_idem, ← map_insert hno, ← hpairs]
  refine wellFormed_of_laid (h.setIno hes hlive hino.2) h.size ?_ h.diroff
  rw [hpairs]
  exact nodup_insert hnames hno

/-- A new entry in a block of its own. -/
theorem WellFormed.enter_fresh (h : WellFormed fs dir) (hno : dir.map name = none) (hname : Nameable ino name) (endoff : Nat)
    (pad : Nat → UInt8) : ∃ dir', direnter fs dir ⟨dir.size, 0, endoff⟩ ino name pad = .ok dir' ∧ WellFormed fs dir' ∧
      dir'.map = Function.update dir.map name (some ino) := by
  have hsize := h.size
  have hfs := fs.fsize_ok
  have hshort := hname.short
  have hneed : DIRSIZ name.length ≤ DIRBLKSIZ := by
    unfold DIRSIZ DIRBLKSIZ
    unfold MAXNAMLEN at hshort
    omega
  have hlt := lt_dirsiz name.length
  have hround : roundup (max dir.size (dir.size + DIRSIZ name.length)) DIRBLKSIZ = dir.size + DIRBLKSIZ := by
    unfold roundup
    unfold DIRBLKSIZ at *
    omega
  have hnames : name ∉ (pairs dir.entries ++ []).map Prod.fst := by
    rw [List.append_nil]
    exact lookup_eq_none.1 hno
  have hmap : dir.map = fun n => (pairs dir.entries ++ []).lookup n := by
    rw [List.append_nil]
    rfl
  unfold direnter
  simp only
  rw [if_pos trivial, if_neg (not_not.2 hsize), if_neg (by omega), hround]
  refine ⟨_, rfl, ?_⟩
  have hpairs : pairs (dir.entries ++ [⟨ino, DIRBLKSIZ, name, 0⟩]) = pairs dir.entries ++ (name, ino) :: [] := by
    have hpos := hname.ino_pos
    rw [pairs_append, pairs_live (by simp [Entry.live]; omega)]
    rfl
  rw [hmap, ← map_insert hnames, ← hpairs]
  refine wellFormed_of_laid ?_ ?_ ?_ h.diroff
  · have hend := h.laid.end_eq
    rw [Nat.zero_add] at hend
    rw [laid_append, Nat.zero_add, ← hend]
    refine ⟨h.laid.agree (agree_store _ _ (.inl (Nat.le_refl _))), ?_, hname.good rfl ?_ hneed, rfl⟩
    · apply entryAt_newdir hname.ino_lt (by decide)
      unfold MAXNAMLEN at hshort
      omega
    · rw [hsize]
      exact Nat.le_refl _
  · show (dir.size + DIRBLKSIZ) % DIRBLKSIZ = 0
    rw [Nat.add_mod_right]
    exact hsize
  · rw [hpairs]
    refine nodup_insert ?_ hnames
    rw [List.append_nil]
    exact h.names

/-- A new entry among others, with the blocks behind the last live entry cut off. -/
theorem WellFormed.enter_range (h : WellFormed fs dir) (hno : dir.map name = none) (hname : Nameable ino name)
    (pad : Nat → UInt8) {r : List Entry} {endoff : Nat} (hes : dir.entries = p ++ r ++ q) (hr : r ≠ [])
    (hfree : DIRSIZ name.length ≤ freeOf r) (hblock : len p % DIRBLKSIZ + len r ≤ DIRBLKSIZ)
    (haligned : endoff % DIRBLKSIZ = 0) (hlower : len p + len r ≤ endoff) (hupper : endoff ≤ dir.size)
    (huseful : ∀ p' e q', dir.entries = p' ++ e :: q' → e.live = true → len p' + e.reclen ≤ endoff) :
    ∃ dir', direnter fs dir ⟨len p, len r, endoff⟩ ino name pad = .ok dir' ∧ WellFormed fs dir' ∧
      dir'.map = Function.update dir.map name (some ino) := by
  have hlaid := h.laid
  rw [hes, laid_append, laid_append, len_append, Nat.zero_add, Nat.zero_add] at hlaid
  obtain ⟨⟨hp, hrl⟩, hq⟩ := hlaid
  obtain ⟨d', henter, hnew, hbelow, habove⟩ := UfsDir.enter_range endoff pad hrl hr hfree hblock hname
  refine ⟨_, henter, ?_⟩
  have hpos : 0 < endoff := by
    obtain ⟨e, r, rfl⟩ := List.exists_cons_of_ne_nil hr
    have := hrl.2.1.pos
    rw [len_cons] at hlower
    omega
  have hmax : max dir.size (len p + len r) = dir.size := by omega
  have hcut : (if endoff ≠ 0 ∧ endoff < dir.size then endoff else dir.size) = endoff := by
    split <;> omega
  -- the entries behind `endoff` are not in use
  obtain ⟨q₁, q₂, rfl, hq₁, hq₂⟩ := hq.split haligned hlower hupper
  have hlen : len (p ++ r ++ q₁) = endoff := by
    have := hq₁.end_eq
    rw [len_append, len_append]
    omega
  have hdead : pairs q₂ = [] := by
    simp only [pairs, List.map_eq_nil_iff, List.filter_eq_nil_iff]
    intro e he hlive
    obtain ⟨x, y, rfl⟩ := List.append_of_mem he
    have hle := huseful (p ++ r ++ q₁ ++ x) e y (by rw [hes]; simp) hlive
    obtain ⟨-, hg, -, -⟩ := hq₂.mem
    have := hg.pos
    rw [len_append, hlen] at hle
    omega
  have hold : pairs dir.entries = (pairs p ++ pairs r) ++ pairs q₁ := by
    rw [hes, pairs_append, pairs_append, pairs_append, hdead, List.append_nil]
  have hnames : name ∉ ((pairs p ++ pairs r) ++ pairs q₁).map Prod.fst := by
    rw [← hold]
    exact lookup_eq_none.1 hno
  have hmap : dir.map = fun n => ((pairs p ++ pairs r) ++ pairs q₁).lookup n := by
    rw [← hold]
    rfl
  have hpairs : pairs (p ++ (packed r ++ [⟨ino, (freeOf r).toNat, name, 0⟩]) ++ q₁) =
      (pairs p ++ pairs r) ++ (name, ino) :: pairs q₁ := by
    have hino := hname.ino_pos
    have hone : pairs [⟨ino, (freeOf r).toNat, name, 0⟩] = [(name, ino)] := by
      rw [pairs_live (by simp [Entry.live]; omega)]
      rfl
    rw [pairs_append, pairs_append, pairs_append, pairs_packed, hone]
    simp
  rw [hmap, ← map_insert hnames, ← hpairs, hmax, hcut]
  refine wellFormed_of_laid ?_ haligned ?_ h.diroff
  · show Laid fs d' 0 _ endoff
    have hsum : len (packed r ++ [⟨ino, (freeOf r).toNat, name, 0⟩]) = len r := by
      have := hnew.end_eq
      omega
    rw [laid_append, laid_append, len_append, hsum, Nat.zero_add, Nat.zero_add]
    exact ⟨⟨hp.agree (hbelow 0 (Nat.zero_le _)), hnew⟩, hq₁.agree (habove _)⟩
  · rw [hpairs]
    refine nodup_insert ?_ hnames
    rw [← hold]
    exact h.names

theorem WellFormed.enter (h : WellFormed fs dir) (hno : dir.map name = none) (hname : Nameable ino name) (pad : Nat → UInt8)
    {slot : Slot} (hplace : Place dir (DIRSIZ name.length) slot) :
    ∃ dir', direnter fs dir slot ino name pad = .ok dir' ∧ WellFormed fs dir' ∧
      dir'.map = Function.update dir.map name (some ino) := by
  cases hplace with
  | fresh endoff => exact h.enter_fresh hno hname endoff pad
  | range hes hr hfree hblock haligned hlower hupper huseful =>
    exact h.enter_range hno hname pad hes hr hfree hblock haligned hlower hupper huseful

/-! ## `dirempty` -/

/-- The entries that `dirempty` accepts. -/
def Entry.accepted (parentino : Nat) (e : Entry) : Bool :=
  !e.live || e.name = [46] || (e.name = [46, 46] && e.ino = parentino)

theorem emptyLoop_eq {d : Bytes} {a b parentino fuel : Nat} (h : Laid fs d a es b) (hfuel : es.length ≤ fuel) :
    emptyLoop d b parentino fuel a = es.all (Entry.accepted parentino) := by
  induction es generalizing a fuel with
  | nil =>
    obtain rfl : a = b := h
    cases fuel with
    | zero => rfl
    | succ fuel => rw [emptyLoop, if_neg (Nat.lt_irrefl a)]; rfl
  | cons e es ih =>
    obtain ⟨he, hg, hrest⟩ := h
    have hpos := hg.pos
    have hle := hrest.le
    rw [List.length_cons] at hfuel
    obtain ⟨fuel, rfl⟩ : ∃ n, fuel = n + 1 := ⟨fuel - 1, by omega⟩
    have hreclen : dReclen d a = e.reclen := by rw [← he]; rfl
    have hino : dIno d a = e.ino := by rw [← he]; rfl
    have hname : dName d a (dNamlen d a) = e.name := by rw [← he]; rfl
    have hnext := ih hrest (by omega : es.length ≤ fuel)
    rw [emptyLoop, if_pos (by omega), if_neg (by unfold MINDIRSIZ; omega), hreclen, if_neg (by omega), hino, List.all_cons]
    by_cases hz : e.ino = 0
    · rw [if_pos hz, hnext]
      simp [Entry.accepted, Entry.live, hz]
    · have hlive : e.live = true := by simp [Entry.live, hz]
      have hne := hg.named hlive
      rw [if_neg hz, ← hnext]
      have hlen : dNamlen d a = e.name.length := by rw [← he, entryAt_namlen]
      rw [hlen] at hname
      rw [hlen]
      rcases hn : e.name with _ | ⟨c, _ | ⟨c', _ | ⟨c'', t⟩⟩⟩
      · exact absurd hn hne
      · have hc : d (a + 8) = c := by
          rw [hn] at hname
          simpa [dName] using hname
        rw [hc]
        by_cases hdot : c = 46
        · simp [Entry.accepted, hn, hdot]
        · simp [Entry.accepted, hn, hdot, hlive]
      · have hcs : d (a + 8) = c ∧ d (a + 9) = c' := by
          rw [hn] at hname
          simpa [dName, List.range_succ] using hname
        rw [hcs.1, hcs.2]
        by_cases hdot : c = 46
        · by_cases hdot' : c' = 46
          · by_cases hparent : e.ino = parentino
            · simp [Entry.accepted, hn, hdot, hdot', hparent]
            · simp [Entry.accepted, hn, hdot, hdot', hparent, hlive]
          · simp [Entry.accepted, hn, hdot, hdot', hlive]
        · simp [Entry.accepted, hn, hdot, hlive]
      · simp [Entry.accepted, hn, hlive]

theorem WellFormed.dirempty_iff (h : WellFormed fs dir) (parentino : Nat) :
    dirempty dir parentino = true ↔ ∀ name i, dir.map name = some i → name = [46] ∨ name = [46, 46] ∧ i = parentino := by
  have hfuel := h.laid.length_le
  rw [dirempty, emptyLoop_eq h.laid (by omega), List.all_eq_true]
  constructor
  · intro hall n i hm
    by_contra hn
    -- the name is that of a live entry
    have hmem : ¬dir.map n = none := by rw [hm]; simp
    rw [map_eq_none_iff] at hmem
    simp only [not_forall, ne_eq, not_not] at hmem
    obtain ⟨e, he, hlive, rfl⟩ := hmem
    obtain ⟨p, q, hes⟩ := List.append_of_mem he
    obtain ⟨hmap, hnodup⟩ := h.map_eq hes hlive
    have hi := (map_found hmap hnodup).symm.trans hm
    obtain rfl := Option.some.inj hi
    have := hall e he
    simp [Entry.accepted, hlive] at this
    exact hn this
  · intro hall e he
    by_cases hlive : e.live = true
    · obtain ⟨p, q, hes⟩ := List.append_of_mem he
      obtain ⟨hmap, hnodup⟩ := h.map_eq hes hlive
      rcases hall e.name e.ino (map_found hmap hnodup) with hn | ⟨hn, hi⟩
      · simp [Entry.accepted, hn]
      · simp [Entry.accepted, hn, hi]
    · simp [Entry.accepted, hlive]

end Changes

/-! ## Every sequence of operations -/

/-- One operation does what it does to the map. -/
theorem WellFormed.step {fs : Fs} {dir : Dir} (h : WellFormed fs dir) {op : Op} (hop : op.Valid) :
    ∃ dir' a, step fs dir op = .ok (dir', a) ∧ WellFormed fs dir' ∧ Spec dir.map dir'.map op a := by
  cases op with
  | create name ino pad =>
    unfold UfsDir.step
    rcases h.lookup .CREATE true name with ⟨dir', p, e, q, count, hl, -, -, -, hes, hlive, rfl, hsame⟩ | ⟨slot, hl, hno, hplace⟩
    · obtain ⟨rfl, -⟩ := hsame (by simp)
      obtain ⟨hmap, hnodup⟩ := h.map_eq hes hlive
      simp only [hl]
      exact ⟨_, _, rfl, h, .inr ⟨by rw [map_found hmap hnodup]; simp, rfl, rfl⟩⟩
    · obtain ⟨dir', henter, hwf, hmap⟩ := h.enter hno hop pad (hplace rfl rfl)
      simp only [hl, henter]
      exact ⟨_, _, rfl, hwf, .inl ⟨hno, hmap, rfl⟩⟩
  | remove name =>
    unfold UfsDir.step
    rcases h.lookup .DELETE true name with ⟨dir', p, e, q, count, hl, -, -, -, hes, hlive, rfl, hsame⟩ | ⟨slot, hl, hno, -⟩
    · obtain ⟨rfl, hbefore⟩ := hsame (by simp)
      obtain ⟨hmap, hnodup⟩ := h.map_eq hes hlive
      obtain ⟨hwf, hmap'⟩ := h.remove hes hlive hbefore
      simp only [hl]
      exact ⟨_, _, rfl, hwf, .inl ⟨by rw [map_found hmap hnodup]; simp, hmap', rfl⟩⟩
    · simp only [hl]
      exact ⟨_, _, rfl, h, .inr ⟨hno, rfl, rfl⟩⟩
  | rewrite name ino =>
    unfold UfsDir.step
    rcases h.lookup .RENAME true name with ⟨dir', p, e, q, count, hl, -, -, -, hes, hlive, rfl, hsame⟩ | ⟨slot, hl, hno, -⟩
    · obtain ⟨rfl, -⟩ := hsame (by simp)
      obtain ⟨hmap, hnodup⟩ := h.map_eq hes hlive
      obtain ⟨hwf, hmap'⟩ := h.rewrite hes hlive count hop
      simp only [hl]
      exact ⟨_, _, rfl, hwf, .inl ⟨by rw [map_found hmap hnodup]; simp, hmap', rfl⟩⟩
    · simp only [hl]
      exact ⟨_, _, rfl, h, .inr ⟨hno, rfl, rfl⟩⟩
  | lookup name last =>
    unfold UfsDir.step
    rcases h.lookup .LOOKUP last name with ⟨dir', p, e, q, count, hl, hbytes, hsize, hoff, hes, hlive, rfl, -⟩ | ⟨slot, hl, hno, -⟩
    · obtain ⟨hmap, hnodup⟩ := h.map_eq hes hlive
      have hlaid : Laid fs dir'.bytes 0 dir.entries dir'.size := by
        rw [hbytes, hsize]
        exact h.laid
      obtain ⟨hwf, hmap'⟩ := wellFormed_of_laid hlaid (by rw [hsize]; exact h.size) h.names hoff
      simp only [hl]
      exact ⟨_, _, rfl, hwf, hmap', .inl ⟨e.ino, map_found hmap hnodup, rfl⟩⟩
    · simp only [hl]
      exact ⟨_, _, rfl, h, rfl, .inr ⟨hno, rfl⟩⟩
  | isEmpty parentino => exact ⟨_, _, rfl, h, rfl, _, rfl, h.dirempty_iff parentino⟩

/-- Every sequence of operations does to the directory what it does to a finite map, and none panics. -/
theorem dir_runs (fs : Fs) (dir : Dir) (h : WellFormed fs dir) (ops : List Op) (hops : ∀ op ∈ ops, op.Valid) :
    ∃ dir' as, run fs dir ops = .ok (dir', as) ∧ WellFormed fs dir' ∧ SpecRun dir.map ops dir'.map as := by
  induction ops generalizing dir with
  | nil => exact ⟨dir, [], rfl, h, .nil _⟩
  | cons op ops ih =>
    obtain ⟨dir', a, hstep, hwf, hspec⟩ := h.step (hops op List.mem_cons_self)
    obtain ⟨dir'', as, hrun, hwf', hrest⟩ := ih dir' hwf fun o ho => hops o (List.mem_cons_of_mem _ ho)
    refine ⟨dir'', a :: as, ?_, hwf', .cons hspec hrest⟩
    simp only [run, hstep, hrun, bind, Except.bind]
    rfl

/-- A file system with blocks of 8192 bytes and fragments of 1024. -/
def smallFs : Fs := ⟨8192, 1024, false, by decide⟩

/-- The bytes of an entry, filled up with zeros. -/
def entryBytes (ino reclen namlen : Nat) (name : List UInt8) : List UInt8 :=
  let l := le32 ino ++ le16 reclen ++ le16 namlen ++ name
  l ++ List.replicate (reclen - l.length) 0

/-- A directory with its own entry and that of its parent. -/
def newDir : Dir where
  bytes := fun i => (entryBytes 5 12 1 [46] ++ entryBytes 2 500 2 [46, 46]).getD i 0
  size := 512
  diroff := 0

theorem newDir_wellFormed : WellFormed smallFs newDir := by
  have hlaid : Laid smallFs newDir.bytes 0 [⟨5, 12, [46], 0⟩, ⟨2, 500, [46, 46], 0⟩] newDir.size := by
    refine ⟨by decide +kernel, ⟨by decide, by decide, by decide, by decide, ?_, ?_⟩, by decide +kernel,
      ⟨by decide, by decide, by decide, by decide, ?_, ?_⟩, rfl⟩
    · simp
    · simp [smallFs]
    · simp
    · simp [smallFs]
  exact (wellFormed_of_laid hlaid rfl (by decide) rfl).1

theorem dir_runs_new : ∃ dir' as, run smallFs newDir [.create [97] 7 (fun _ => 0), .lookup [97] true, .isEmpty 2] = .ok (dir', as) ∧
    WellFormed smallFs dir' ∧ SpecRun newDir.map [.create [97] 7 (fun _ => 0), .lookup [97] true, .isEmpty 2] dir'.map as :=
  dir_runs smallFs newDir newDir_wellFormed _ (by
    intro op hop
    simp only [List.mem_cons, List.not_mem_nil, or_false] at hop
    rcases hop with rfl | rfl | rfl
    · exact ⟨by decide, by decide, by decide, by decide, by decide⟩
    · trivial
    · trivial)

/-! ## An entry that is not in use -/

/-- The second entry is not in use and has the 12 bytes of a header, but a name of 255 bytes. -/
def deadDir : Dir where
  bytes := fun i => (entryBytes 5 20 1 [46] ++ entryBytes 0 12 255 [] ++ entryBytes 3 264 255 (List.replicate 255 98) ++
    entryBytes 4 216 205 (List.replicate 205 99)).getD i 0
  size := 512
  diroff := 0

/-- Its block is tiled by entries of aligned lengths, with room for the names in use; but a creation slides 264 bytes
over the 12, and the third name is lost. -/
theorem dead_entry_slides :
    (deadDir.entries.map fun e => (e.ino, e.reclen, e.name.length)) = [(5, 20, 1), (0, 12, 255), (3, 264, 255), (4, 216, 205)] ∧
    deadDir.map (List.replicate 255 98) = some 3 ∧
    ((step smallFs deadDir (.create (List.replicate 8 97) 7 fun _ => 0)).toOption.map
      fun r => (r.2, r.1.map (List.replicate 255 98))) = some (.done, none) := by
  decide +kernel

end BsdKernel.UfsDir
