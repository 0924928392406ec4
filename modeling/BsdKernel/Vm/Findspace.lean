import BsdKernel.Vm.MapRuns
import Mathlib.Order.Bounds.Basic
/-!
# Finding space

`vm_map_findspace` is first-fit: from the place where its loop begins on it finds the least address
at which the length fits (`findspaceLoop_least`), and it begins there with nothing skipped if all that is
before the end of the entry `first_free` points to is mapped (`Filled`). `firstFit_iff` says that it is
exact if and only if that is so.
-/

namespace BsdKernel.VmMap

open VmObject (vmAdd)

/-! ## What it is for -/

/-- `[a, a + length)` does not wrap, lies below `max_offset` and meets no entry. -/
structure Fits (m : Map) (length a : Nat) : Prop where
  wrap : a + length < 2 ^ 32
  below : a + length ≤ m.maxOffset
  free : ∀ e ∈ m.entries, e.end_ ≤ a ∨ a + length ≤ e.start

/-- The addresses to choose from. -/
def fitting (m : Map) (start length : Nat) : Set Nat := {a | max start m.minOffset ≤ a ∧ Fits m length a}

/-- The search returns the least address that fits, and fails only if there is none. -/
structure FirstFit (m : Map) (start length : Nat) : Prop where
  found : ∀ a, (vmMapFindspace m start length).1 = some a ↔ IsLeast (fitting m start length) a
  full : (vmMapFindspace m start length).1 = none ↔ fitting m start length = ∅

/-- Up to the end of the entry `first_free` points to everything is mapped. -/
def Filled (m : Map) : Prop :=
  ∀ e ∈ m.entries, m.firstFree = some e.id → ∀ a, m.minOffset ≤ a → a < e.end_ → Mapped m.entries a

/-! ## The loop -/

section Loop
variable {hi lo start length a : Nat} {es b r : List Entry} {e : Entry} {m : Map}

/-- What the code tests: the sum goes over the end, or wraps. -/
theorem passes_iff (hs : start < 2 ^ 32) (hl : length < 2 ^ 32) (hhi : hi < 2 ^ 32) :
    (vmAdd start length > hi ∨ vmAdd start length < start) ↔ hi < start + length := by
  unfold vmAdd
  omega

/-- The addresses from `start` on at which `length` fits between the entries. -/
def gaps (hi length start : Nat) (es : List Entry) : Set Nat :=
  {a | start ≤ a ∧ a + length ≤ hi ∧ ∀ e ∈ es, e.end_ ≤ a ∨ a + length ≤ e.start}

theorem gaps_passed (h : hi < start + length) : gaps hi length start es = ∅ := by
  refine Set.eq_empty_iff_forall_notMem.2 fun a ha => ?_
  have := ha.1
  have := ha.2.1
  omega

theorem gaps_here (h : Ordered hi lo es) (hin : start + length ≤ hi) (hfit : ∀ e ∈ es.head?, start + length ≤ e.start) :
    IsLeast (gaps hi length start es) start := by
  refine ⟨⟨Nat.le_refl _, hin, fun e he => .inr ?_⟩, fun a ha => ha.1⟩
  exact ((h.raise hfit).mem he).1

/-- Where the length does not fit before an entry the search goes on behind it. -/
theorem gaps_next (hlo : start ≤ e.start) (hlt : e.start < e.end_) (hno : e.start < start + length) :
    gaps hi length start (e :: es) = gaps hi length e.end_ es := by
  ext a
  constructor
  · rintro ⟨hs, hm, hfree⟩
    rw [List.forall_mem_cons] at hfree
    refine ⟨hfree.1.resolve_right fun hf => ?_, hm, hfree.2⟩
    omega
  · rintro ⟨hs, hm, hfree⟩
    exact ⟨by omega, hm, List.forall_mem_cons.2 ⟨.inl hs, hfree⟩⟩

/-- The least element of a set of addresses, or no element where there is none. -/
def Finds (s : Set Nat) : Option Nat → Prop
  | some a => IsLeast s a
  | none => s = ∅

/-- The loop finds the least gap, if there is one. -/
theorem findspaceLoop_least (hl : length < 2 ^ 32) (hhi : hi < 2 ^ 32) (es : List Entry) :
    ∀ (start : Nat) (q : Ref), start < 2 ^ 32 → Ordered hi start es →
      Finds (gaps hi length start es) ((findspaceLoop hi length start q es).map (·.1)) := by
  induction es with
  | nil =>
    intro start q hs h
    rw [findspaceLoop]
    split
    · rename_i hpass
      exact gaps_passed ((passes_iff hs hl hhi).1 hpass)
    · rename_i hpass
      rw [passes_iff hs hl hhi] at hpass
      exact gaps_here h (Nat.not_lt.1 hpass) (by intros; contradiction)
  | cons e es ih =>
    intro start q hs h
    obtain ⟨hlo, hlt, hend, hrest⟩ := h
    rw [findspaceLoop]
    split
    · rename_i hpass
      exact gaps_passed ((passes_iff hs hl hhi).1 hpass)
    · rename_i hpass
      rw [passes_iff hs hl hhi] at hpass
      have hadd : vmAdd start length = start + length := Nat.mod_eq_of_lt (by omega)
      rw [hadd]
      split
      · rename_i hfit
        refine gaps_here ⟨hlo, hlt, hend, hrest⟩ (Nat.not_lt.1 hpass) fun x hx => ?_
        cases hx
        exact hfit
      · rename_i hno
        rw [gaps_next hlo hlt (Nat.not_le.1 hno)]
        exact ih e.end_ (some e.id) (by omega) hrest

end Loop

/-! ## The search -/

section Search
variable {m : Map} {start length a : Nat} {b r : List Entry} {e : Entry}

/-- The loop over the last entries of a map finds what fits, if no address before them does. -/
theorem fitting_gaps (h : Linked m) (hm : m.entries = b ++ r) {s : Nat} (hs : ∀ x ∈ b, x.end_ ≤ s) (hlo : max start m.minOffset ≤ s)
    (hskip : ∀ a ∈ fitting m start length, s ≤ a) : fitting m start length = gaps m.maxOffset length s r := by
  have hbound := h.bound
  ext a
  constructor
  · intro ha
    have hfit := ha.2
    exact ⟨hskip a ha, hfit.below, fun e he => hfit.free e (by rw [hm]; exact List.mem_append_right b he)⟩
  · rintro ⟨hsa, hin, hfree⟩
    refine ⟨by omega, by omega, hin, fun e he => ?_⟩
    rw [hm] at he
    rcases List.mem_append.1 he with he | he
    · exact .inl (by have := hs e he; omega)
    · exact hfree e he

theorem ordered_behind (h : Linked m) (hm : m.entries = b ++ r) {s : Nat} (hs : ∀ x ∈ r, s ≤ x.start) : Ordered m.maxOffset s r :=
  ((ordered_append b r _).1 (hm ▸ h.ordered)).2.raise fun x hx => hs x (List.mem_of_mem_head? hx)

theorem Fits.outside (hf : Fits m length a) (hlen : 0 < length) (he : e ∈ m.entries) (hlo : e.start ≤ a) : e.end_ ≤ a :=
  (hf.free e he).resolve_right (by omega)

/-- Where the loop begins: the entries before that place, and those from there on. -/
structure Begins (m : Map) (start length s : Nat) (q : Ref) (n : Map) (b r : List Entry) : Prop where
  after : (n.after q).2 = r
  maxOffset : n.maxOffset = m.maxOffset
  entries : m.entries = b ++ r
  before : ∀ x ∈ b, x.end_ ≤ s
  behind : ∀ x ∈ r, s ≤ x.start
  low : max start m.minOffset ≤ s
  skip : ∀ a ∈ fitting m start length, s ≤ a
  bound : s < 2 ^ 32

theorem Begins.finds {s : Nat} {q : Ref} {n : Map} (hb : Begins m start length s q n b r) (h : Linked m) (hl : length < 2 ^ 32) :
    Finds (fitting m start length) ((findspaceLoop n.maxOffset length s q (n.after q).2).map (·.1)) := by
  rw [hb.after, hb.maxOffset, fitting_gaps h hb.entries hb.before hb.low hb.skip]
  exact findspaceLoop_least hl h.bound r s q hb.bound (ordered_behind h hb.entries hb.behind)

theorem begins_behind (h : Linked m) (hm : m.entries = b ++ e :: r) (n : Map) (hn : n.entries = m.entries)
    (hmax : n.maxOffset = m.maxOffset) (hlow : max start m.minOffset ≤ e.end_)
    (hskip : ∀ a ∈ fitting m start length, e.end_ ≤ a) :
    Begins m start length e.end_ (some e.id) n (b ++ [e]) r := by
  have hpair := List.pairwise_append.1 (hm ▸ h.ordered).pairwise
  have hin := h.ordered.mem (show e ∈ m.entries by simp [hm])
  have hbound := h.bound
  refine ⟨?_, hmax, by simpa using hm, fun x hx => ?_, fun x hx => ?_, hlow, hskip, by omega⟩
  · rw [after_middle (hn.trans hm) (hn ▸ h.nodup)]
  · rcases List.mem_append.1 hx with hx | hx
    · have := (hpair.2.2 x hx e (by simp)).2
      omega
    · rw [List.mem_singleton.1 hx]
  · exact ((List.pairwise_cons.1 hpair.2.1).1 x hx).2

theorem begins_at (h : Linked m) (hm : m.entries = b ++ r) (n : Map) (hn : n.entries = m.entries) (hmax : n.maxOffset = m.maxOffset)
    (hb : ∀ x ∈ b, x.end_ ≤ max start m.minOffset) (hr : ∀ x ∈ r, max start m.minOffset ≤ x.start)
    (hs : max start m.minOffset ≤ m.maxOffset) :
    Begins m start length (max start m.minOffset) (lastRef b) n b r := by
  have hbound := h.bound
  refine ⟨?_, hmax, hm, hb, hr, Nat.le_refl _, fun a ha => ha.1, by omega⟩
  rw [after_lastRef (hn.trans hm) (hn ▸ h.nodup)]

/-- The address, the entry and the map the loop is entered with. -/
def findspaceBegin (m : Map) (start : Nat) : Nat × Ref × Map :=
  if start = m.minOffset then (if m.firstFree ≠ none then m.end_ m.firstFree else start, m.firstFree, m)
  else
    let (found, tmp, n) := vmMapLookupEntry m start
    (if found then n.end_ tmp else start, tmp, n)

theorem vmMapFindspace_eq (m : Map) (start length : Nat) : vmMapFindspace m start length =
    if max start m.minOffset > m.maxOffset then (none, m)
    else
      let (s, q, n) := findspaceBegin m (max start m.minOffset)
      match findspaceLoop n.maxOffset length s q (n.after q).2 with
      | none => (none, n)
      | some (a, q) => (some a, { n with hint := q }) := by
  have hraise : (if start < m.minOffset then m.minOffset else start) = max start m.minOffset := by
    split <;> omega
  unfold vmMapFindspace
  rw [hraise]
  rfl

theorem vmMapFindspace_fst (m : Map) (start length : Nat) : (vmMapFindspace m start length).1 =
    if max start m.minOffset > m.maxOffset then none
    else
      let (s, q, n) := findspaceBegin m (max start m.minOffset)
      (findspaceLoop n.maxOffset length s q (n.after q).2).map (·.1) := by
  rw [vmMapFindspace_eq]
  split
  · rfl
  · generalize findspaceBegin m (max start m.minOffset) = p
    obtain ⟨s, q, n⟩ := p
    simp only
    cases findspaceLoop n.maxOffset length s q (n.after q).2 <;> rfl

theorem findspaceBegin_same (h : Linked m) (s : Nat) :
    (findspaceBegin m s).2.2 = { m with hint := (findspaceBegin m s).2.2.hint } := by
  unfold findspaceBegin
  split
  · rfl
  · exact (lookup_spec h s).same

/-- At `min_offset` with a hint: the entry it points to is passed, and all before its end is mapped. -/
theorem begins_hint (h : Linked m) (hf : Filled m) (hlen : 0 < length) (hmin : max start m.minOffset = m.minOffset)
    (hm : m.entries = b ++ e :: r) (hfree : m.firstFree = some e.id) : Begins m start length e.end_ (some e.id) m (b ++ [e]) r := by
  have he : e ∈ m.entries := by simp [hm]
  have hin := h.ordered.mem he
  refine begins_behind h hm m rfl rfl (by omega) fun a ha => Nat.not_lt.1 fun hlt => ?_
  obtain ⟨x, hx, hlo, hhi⟩ := hf e he hfree a (by rw [← hmin]; exact ha.1) hlt
  have := ha.2.outside hlen hx hlo
  omega

/-- At another address: the entry that holds it, if there is one, is passed. -/
theorem begins_lookup (h : Linked m) (hlen : 0 < length) (hin : max start m.minOffset ≤ m.maxOffset) :
    ∃ b r, Begins m start length
      (if (vmMapLookupEntry m (max start m.minOffset)).1 then
          (vmMapLookupEntry m (max start m.minOffset)).2.2.end_ (vmMapLookupEntry m (max start m.minOffset)).2.1
        else max start m.minOffset) (vmMapLookupEntry m (max start m.minOffset)).2.1
      (vmMapLookupEntry m (max start m.minOffset)).2.2 b r := by
  have hl := lookup_spec h (max start m.minOffset)
  generalize vmMapLookupEntry m (max start m.minOffset) = p at hl ⊢
  obtain ⟨found, q, n⟩ := p
  obtain ⟨hloc, hsame, -, -⟩ := hl
  simp only at hloc hsame ⊢
  have hn : n.entries = m.entries := by rw [hsame]
  have hmax : n.maxOffset = m.maxOffset := by rw [hsame]
  cases found with
  | true =>
    obtain ⟨b, e, r, hm, rfl, hlo, hhi⟩ := hloc.entry
    have hend : n.end_ (some e.id) = e.end_ := end_middle (hn.trans hm) (hn ▸ h.nodup)
    have he : e ∈ m.entries := by simp [hm]
    rw [if_pos rfl, hend]
    exact ⟨_, r, begins_behind h hm n hn hmax (Nat.le_of_lt hhi) fun a ha => ha.2.outside hlen he (Nat.le_trans hlo ha.1)⟩
  | false =>
    obtain ⟨b, r, hm, rfl, hb, hr⟩ := hloc
    exact ⟨b, r, begins_at h hm n hn hmax hb (fun x hx => Nat.le_of_lt (hr x hx)) hin⟩

theorem begins_spec (h : Linked m) (hf : Filled m) (hlen : 0 < length) (hin : max start m.minOffset ≤ m.maxOffset) :
    ∃ b r, Begins m start length (findspaceBegin m (max start m.minOffset)).1 (findspaceBegin m (max start m.minOffset)).2.1
      (findspaceBegin m (max start m.minOffset)).2.2 b r := by
  unfold findspaceBegin
  split
  · rename_i hmin
    rcases h.firstFree.cases with hfree | ⟨e, he, hfree⟩
    · rw [hfree]
      have hall : ∀ x ∈ m.entries, max start m.minOffset ≤ x.start := fun x hx => by
        rw [hmin]
        exact (h.ordered.mem hx).1
      exact ⟨[], m.entries, begins_at (b := []) h rfl m rfl rfl (fun _ hx => by cases hx) hall hin⟩
    · obtain ⟨b, r, hm⟩ := List.append_of_mem he
      have hend : m.end_ (some e.id) = e.end_ := end_middle hm h.nodup
      rw [hfree, if_pos (by simp), hend]
      exact ⟨_, r, begins_hint h hf hlen hmin hm hfree⟩
  · exact begins_lookup h hlen hin

theorem finds_of_filled (h : Linked m) (hf : Filled m) (start : Nat) (hlen : 0 < length) (hl : length < 2 ^ 32) :
    Finds (fitting m start length) (vmMapFindspace m start length).1 := by
  rw [vmMapFindspace_fst]
  split
  · rename_i hover
    refine Set.eq_empty_iff_forall_notMem.2 fun a ha => ?_
    have := ha.1
    have := ha.2.below
    omega
  · rename_i hin
    obtain ⟨b, r, hbegin⟩ := begins_spec h hf hlen (Nat.not_lt.1 hin)
    exact hbegin.finds h hl

theorem firstFit_of_finds (h : Finds (fitting m start length) (vmMapFindspace m start length).1) : FirstFit m start length := by
  cases hr : (vmMapFindspace m start length).1 with
  | none =>
    have hnone : fitting m start length = ∅ := by rwa [hr] at h
    refine ⟨fun a => ?_, iff_of_true hr hnone⟩
    rw [hr, hnone]
    exact iff_of_false (by simp) fun ha => ha.1
  | some x =>
    have hleast : IsLeast (fitting m start length) x := by rwa [hr] at h
    refine ⟨fun a => ?_, ?_⟩
    · rw [hr, Option.some.injEq]
      exact ⟨fun hx => hx ▸ hleast, fun ha => hleast.unique ha⟩
    · rw [hr]
      exact iff_of_false (by simp) (Set.nonempty_iff_ne_empty.1 ⟨x, hleast.1⟩)

theorem findspace_behind (h : Linked m) (he : e ∈ m.entries) (hfree : m.firstFree = some e.id) (hl : length < 2 ^ 32)
    (ha : (vmMapFindspace m m.minOffset length).1 = some a) : e.end_ ≤ a := by
  obtain ⟨b, r, hm⟩ := List.append_of_mem he
  have hin := h.ordered.mem he
  have hbound := h.bound
  have hend : m.end_ (some e.id) = e.end_ := end_middle hm h.nodup
  rw [vmMapFindspace_fst, Nat.max_self, if_neg (by omega)] at ha
  unfold findspaceBegin at ha
  rw [if_pos rfl, hfree, if_pos (by simp), hend] at ha
  simp only [after_middle hm h.nodup] at ha
  have hm' : m.entries = (b ++ [e]) ++ r := by simpa using hm
  have hpair := (List.pairwise_append.1 (hm ▸ h.ordered).pairwise).2.1
  have hord := ordered_behind h hm' fun x hx => ((List.pairwise_cons.1 hpair).1 x hx).2
  have hleast : Finds (gaps m.maxOffset length e.end_ r) _ :=
    findspaceLoop_least hl hbound r e.end_ (some e.id) (by omega) hord
  rw [ha] at hleast
  exact hleast.1.1

/-- The search of a map in order is first-fit for every start and length if and only if `first_free` is as it should be. -/
theorem firstFit_iff (h : Linked m) :
    (∀ start length : UInt32, 0 < length → FirstFit m start.toNat length.toNat) ↔ Filled m := by
  constructor
  · intro hfit e he hfree a hlo hhi
    by_contra hfreea
    have hin := h.ordered.mem he
    have hbound := h.bound
    have hone : (1 : UInt32).toNat = 1 := rfl
    have hmin : (UInt32.ofNat m.minOffset).toNat = m.minOffset := UInt32.toNat_ofNat_of_lt' (show m.minOffset < 2 ^ 32 by omega)
    have hexact := hfit (UInt32.ofNat m.minOffset) 1 (by decide)
    rw [hmin, hone] at hexact
    have hmem : a ∈ fitting m m.minOffset 1 := by
      refine ⟨by omega, by omega, by omega, fun x hx => ?_⟩
      by_contra hno
      exact hfreea ⟨x, hx, by omega, by omega⟩
    cases hr : (vmMapFindspace m m.minOffset 1).1 with
    | none => exact absurd hmem (by rw [hexact.full.1 hr]; exact Set.notMem_empty a)
    | some x =>
      have hle := ((hexact.found x).1 hr).2 hmem
      have hge := findspace_behind h he hfree (by decide) hr
      omega
  · intro hf start length hlen
    exact firstFit_of_finds (finds_of_filled h hf _ hlen (UInt32.toNat_lt length))

end Search

end BsdKernel.VmMap
