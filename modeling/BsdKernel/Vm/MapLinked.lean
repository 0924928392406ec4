import BsdKernel.Vm.Map
import Mathlib.Data.List.Forall2
import Mathlib.Data.List.Perm.Basic
import Mathlib.Tactic.Ring
/-!
# The invariant of an address map

`Linked` is what every operation keeps of one map: its entries are in order between
the bounds, they are as many as `nentries` says, and the two hints point to the header
or to an entry. It is shown here for the changes the operations are made of: a lookup,
and splitting, changing, removing and adding an entry.
-/

namespace BsdKernel.VmMap

open VmObject (vmAdd)

variable {es' : List Entry}

/-! ## Ordered entries -/

/-- Non-empty entries in increasing order that do not overlap, from `lo` up to `hi`. -/
def Ordered (hi : Nat) : Nat → List Entry → Prop
  | _, [] => True
  | lo, e :: es => lo ≤ e.start ∧ e.start < e.end_ ∧ e.end_ ≤ hi ∧ Ordered hi e.end_ es

/-- Where the last entry ends. -/
def lastEnd : Nat → List Entry → Nat
  | lo, [] => lo
  | _, e :: es => lastEnd e.end_ es

section Ordered
variable {hi hi' lo lo' : Nat} {e : Entry} {es b r : List Entry}

@[simp] theorem ordered_nil : Ordered hi lo [] := trivial

@[simp] theorem ordered_cons :
    Ordered hi lo (e :: es) ↔ lo ≤ e.start ∧ e.start < e.end_ ∧ e.end_ ≤ hi ∧ Ordered hi e.end_ es := Iff.rfl

@[simp] theorem lastEnd_nil : lastEnd lo [] = lo := rfl

@[simp] theorem lastEnd_cons : lastEnd lo (e :: es) = lastEnd e.end_ es := rfl

theorem ordered_append (b r : List Entry) (lo : Nat) :
    Ordered hi lo (b ++ r) ↔ Ordered hi lo b ∧ Ordered hi (lastEnd lo b) r := by
  induction b generalizing lo with
  | nil => simp
  | cons e b ih => simp [ih, and_assoc]

theorem Ordered.mem (h : Ordered hi lo es) (he : e ∈ es) : lo ≤ e.start ∧ e.start < e.end_ ∧ e.end_ ≤ hi := by
  induction es generalizing lo with
  | nil => cases he
  | cons x es ih =>
    obtain ⟨h1, h2, h3, h4⟩ := h
    rcases List.mem_cons.1 he with rfl | he
    · exact ⟨h1, h2, h3⟩
    · have := ih h4 he
      omega

theorem Ordered.raise (h : Ordered hi lo es) (hlo : ∀ e ∈ es.head?, lo' ≤ e.start) : Ordered hi lo' es := by
  cases es with
  | nil => trivial
  | cons e es => exact ⟨hlo e rfl, h.2⟩

theorem lastEnd_le {a : Nat} (hlo : lo ≤ a) (h : ∀ e ∈ es, e.end_ ≤ a) : lastEnd lo es ≤ a := by
  induction es generalizing lo with
  | nil => exact hlo
  | cons e es ih => exact ih (h e (by simp)) (fun x hx => h x (by simp [hx]))

theorem Ordered.pairwise (h : Ordered hi lo es) :
    es.Pairwise fun a b => a.start < b.start ∧ a.end_ ≤ b.start := by
  induction es generalizing lo with
  | nil => exact List.Pairwise.nil
  | cons e es ih =>
    refine List.Pairwise.cons (fun x hx => ?_) (ih h.2.2.2)
    have := h.2.2.2.mem hx
    have := h.2.1
    omega

end Ordered

/-! ## Linked maps -/

def ids (es : List Entry) : List Nat := es.map (·.id)

@[simp] theorem ids_nil : ids [] = [] := rfl

@[simp] theorem ids_cons (e : Entry) (es : List Entry) : ids (e :: es) = e.id :: ids es := rfl

@[simp] theorem ids_append (a b : List Entry) : ids (a ++ b) = ids a ++ ids b := List.map_append

/-- The header or an entry of the list. -/
def Live (es : List Entry) (r : Ref) : Prop := ∀ i, r = some i → i ∈ ids es

/-- The bytes the entries map. -/
def total (es : List Entry) : Int := (es.map fun e => (e.end_ : Int) - e.start).sum

@[simp] theorem total_nil : total [] = 0 := rfl

@[simp] theorem total_cons (e : Entry) (es : List Entry) : total (e :: es) = (e.end_ - e.start) + total es := rfl

@[simp] theorem total_append (a b : List Entry) : total (a ++ b) = total a + total b := by
  simp [total, List.map_append, List.sum_append]

structure Linked (m : Map) : Prop where
  ordered : Ordered m.maxOffset m.minOffset m.entries
  nodup : (ids m.entries).Nodup
  fresh : ∀ i ∈ ids m.entries, i < m.nextId
  nentries : m.nentries = m.entries.length
  hint : Live m.entries m.hint
  firstFree : Live m.entries m.firstFree
  bound : m.maxOffset < 2 ^ 32

theorem linked_init {min max : Nat} (h : max < 2 ^ 32) : Linked (vmMapInit min max) where
  ordered := trivial
  nodup := List.nodup_nil
  fresh := by simp [vmMapInit]
  nentries := rfl
  hint := by simp [Live, vmMapInit]
  firstFree := by simp [Live, vmMapInit]
  bound := h

theorem live_none (es : List Entry) : Live es none := fun _ h => by cases h

theorem live_some {es : List Entry} {e : Entry} (h : e ∈ es) : Live es (some e.id) := fun i hi => by
  cases hi
  exact List.mem_map_of_mem h

theorem live_lastRef (b r : List Entry) : Live (b ++ r) (lastRef b) := by
  intro i hi
  obtain ⟨e, he, rfl⟩ := Option.map_eq_some_iff.1 hi
  exact List.mem_map_of_mem (List.mem_append_left _ (List.mem_of_getLast? he))

theorem Live.split {es : List Entry} {i : Nat} (h : Live es (some i)) :
    ∃ b e r, es = b ++ e :: r ∧ e.id = i := by
  obtain ⟨e, he, rfl⟩ := List.mem_map.1 (h i rfl)
  obtain ⟨b, r, rfl⟩ := List.append_of_mem he
  exact ⟨b, e, r, rfl, rfl⟩

theorem Linked.withHint {m : Map} (h : Linked m) {r : Ref} (hr : Live m.entries r) : Linked { m with hint := r } :=
  { h with hint := hr }

theorem Linked.withFirstFree {m : Map} (h : Linked m) {r : Ref} (hr : Live m.entries r) :
    Linked { m with firstFree := r } :=
  { h with firstFree := hr }

/-! ## Pointers -/

section Pointers
variable {m : Map} {b r : List Entry} {e : Entry}

theorem takeWhile_id (b : List Entry) (h : e.id ∉ ids b) :
    (b ++ e :: r).takeWhile (·.id != e.id) = b ∧ (b ++ e :: r).dropWhile (·.id != e.id) = e :: r := by
  induction b with
  | nil => simp
  | cons x b ih =>
    simp only [ids_cons, List.mem_cons, not_or] at h
    have hx : (x.id != e.id) = true := by simpa using Ne.symm h.1
    simp [hx, ih h.2]

theorem not_mem_before (h : (ids (b ++ e :: r)).Nodup) : e.id ∉ ids b := by
  simp only [ids_append, ids_cons] at h
  intro hb
  exact (List.nodup_append.1 h).2.2 _ hb _ (by simp) rfl

theorem at_middle (hm : m.entries = b ++ e :: r) (hn : (ids m.entries).Nodup) :
    m.at_ (some e.id) = (b, e :: r) := by
  have hw := takeWhile_id (r := r) b (not_mem_before (hm ▸ hn))
  rw [Map.at_, hm, hw.1, hw.2]

theorem after_middle (hm : m.entries = b ++ e :: r) (hn : (ids m.entries).Nodup) :
    m.after (some e.id) = (b ++ [e], r) := by
  simp [Map.after, at_middle hm hn]

theorem entry_middle (hm : m.entries = b ++ e :: r) (hn : (ids m.entries).Nodup) : m.entry (some e.id) = some e := by
  simp [Map.entry, at_middle hm hn]

theorem start_middle (hm : m.entries = b ++ e :: r) (hn : (ids m.entries).Nodup) : m.start (some e.id) = e.start := by
  simp [Map.start, entry_middle hm hn]

theorem end_middle (hm : m.entries = b ++ e :: r) (hn : (ids m.entries).Nodup) : m.end_ (some e.id) = e.end_ := by
  simp [Map.end_, entry_middle hm hn]

theorem after_lastRef (hm : m.entries = b ++ r) (hn : (ids m.entries).Nodup) : m.after (lastRef b) = (b, r) := by
  rcases List.eq_nil_or_concat b with rfl | ⟨b', e, rfl⟩
  · simp [lastRef, Map.after, hm]
  · have hm' : m.entries = b' ++ e :: r := by simpa using hm
    simpa [lastRef] using after_middle hm' hn

end Pointers

/-! ## Lookup -/

/-- What a lookup of `a` returns: the last entry that starts at or before `a`, and
whether it holds `a`. -/
def Locates (es : List Entry) (a : Nat) (found : Bool) (entry : Ref) : Prop :=
  ∃ b r, es = b ++ r ∧ entry = lastRef b ∧
    if found then ∃ e, b.getLast? = some e ∧ e.start ≤ a ∧ a < e.end_
    else (∀ e ∈ b, e.end_ ≤ a) ∧ ∀ e ∈ r, a < e.start

section Lookup
variable {hi lo a : Nat} {m : Map}

theorem search_spec (rest : List Entry) :
    ∀ (b : List Entry) (lo : Nat), (∀ e ∈ b, e.end_ ≤ a) → Ordered hi lo rest →
      Locates (b ++ rest) a (search a none (lastRef b) rest).1 (search a none (lastRef b) rest).2 := by
  induction rest with
  | nil => intro b lo hb _; exact ⟨b, [], rfl, rfl, by simpa [search] using hb⟩
  | cons cur rest ih =>
    intro b lo hb ho
    rw [search, if_neg (by simp)]
    split
    · rename_i hend
      split
      · rename_i hstart
        exact ⟨b ++ [cur], rest, by simp, by simp [lastRef], cur, by simp, hstart, hend⟩
      · rename_i hstart
        refine ⟨b, cur :: rest, rfl, rfl, hb, fun e he => ?_⟩
        rcases List.mem_cons.1 he with rfl | he
        · omega
        · have := ho.2.2.2.mem he
          omega
    · rename_i hend
      have hlast : some cur.id = lastRef (b ++ [cur]) := by simp [lastRef]
      rw [hlast]
      have hb' : ∀ e ∈ b ++ [cur], e.end_ ≤ a := fun e he => by
        rcases List.mem_append.1 he with he | he
        · exact hb e he
        · rw [List.mem_singleton.1 he]
          omega
      simpa using ih (b ++ [cur]) cur.end_ hb' ho.2.2.2

/-- A search that is to stop behind an entry that ends after `a` stops before that. -/
theorem search_upto {c : Entry} {r : List Entry} (hc : c.end_ > a) (b : List Entry) :
    ∀ prev, (ids (b ++ c :: r)).Nodup →
      search a (firstRef r) prev (b ++ c :: r) = search a none prev (b ++ c :: r) := by
  have hne : ∀ x : Entry, x.id ∉ ids r → firstRef r ≠ some x.id := fun x hx hr => by
    obtain ⟨y, hy, hyx⟩ := Option.map_eq_some_iff.1 hr
    exact hx (hyx ▸ List.mem_map_of_mem (List.mem_of_head? hy))
  induction b with
  | nil =>
    intro prev hn
    have hcr : c.id ∉ ids r := (List.nodup_cons.1 hn).1
    simp [search, hne c hcr, hc]
  | cons x b ih =>
    intro prev hn
    rw [List.cons_append, ids_cons] at hn
    obtain ⟨hx, hn⟩ := List.nodup_cons.1 hn
    have hxr : x.id ∉ ids r := fun h => hx (by simp [h])
    simp only [List.cons_append, search, if_neg (hne x hxr), ih _ hn, reduceCtorEq, if_false]

structure LookedUp (m : Map) (a : Nat) (found : Bool) (entry : Ref) (m' : Map) : Prop where
  locates : Locates m.entries a found entry
  same : m' = { m with hint := m'.hint }
  live : Live m.entries m'.hint
  missed : found = false → m'.hint = entry

theorem lookedUp_of_locates {found : Bool} {entry : Ref} (h : Locates m.entries a found entry) :
    LookedUp m a found entry { m with hint := entry } := by
  refine ⟨h, rfl, ?_, fun _ => rfl⟩
  obtain ⟨b, r, hm, rfl, -⟩ := h
  exact hm ▸ live_lastRef b r

theorem searched (h : Live m.entries m.hint) : (m.entries = [] ∧ (if m.hint = none then m.next none else m.hint) = none) ∨
    ∃ b c r, m.entries = b ++ c :: r ∧ (if m.hint = none then m.next none else m.hint) = some c.id := by
  split
  · cases he : m.entries with
    | nil => exact .inl ⟨rfl, by simp [Map.next, Map.after, he, firstRef]⟩
    | cons c r => exact .inr ⟨[], c, r, rfl, by simp [Map.next, Map.after, he, firstRef]⟩
  · rename_i hne
    obtain ⟨i, hi⟩ := Option.ne_none_iff_exists'.1 hne
    obtain ⟨b, c, r, hm, rfl⟩ := (hi ▸ h).split
    exact .inr ⟨b, c, r, hm, hi⟩

theorem lookup_spec (h : Linked m) (a : Nat) :
    LookedUp m a (vmMapLookupEntry m a).1 (vmMapLookupEntry m a).2.1 (vmMapLookupEntry m a).2.2 := by
  have hfirst : Locates m.entries a (search a none none m.entries).1 (search a none none m.entries).2 := by
    simpa [lastRef] using search_spec (a := a) m.entries [] m.minOffset (by simp) h.ordered
  unfold vmMapLookupEntry
  simp only
  rcases searched h.hint with ⟨he, hc⟩ | ⟨b, c, r, hm, hc⟩
  · rw [hc]
    split
    · rw [if_neg (by simp)]
      refine lookedUp_of_locates ?_
      simpa [Map.prev, Map.at_, he, search, lastRef] using hfirst
    · refine lookedUp_of_locates ?_
      have hnext : m.next none = none := by simp [Map.next, Map.after, he, firstRef]
      rw [hnext]
      exact hfirst
  · rw [hc, start_middle hm h.nodup, end_middle hm h.nodup]
    have hord := (ordered_append b (c :: r) m.minOffset).1 (hm ▸ h.ordered)
    split
    · rename_i hstart
      split
      · rename_i hend
        refine ⟨⟨b ++ [c], r, by simpa using hm, by simp [lastRef], c, by simp, hstart, hend.2⟩, rfl, h.hint, ?_⟩
        simp
      · refine lookedUp_of_locates ?_
        rw [Map.prev, at_middle hm h.nodup]
        have hb : ∀ e ∈ b, e.end_ ≤ a := fun e heb => by
          have hp := List.pairwise_append.1 (hm ▸ h.ordered).pairwise
          have := (hp.2.2 e heb c (by simp)).2
          omega
        rw [hm]
        exact search_spec (c :: r) b _ hb hord.2
    · rename_i hstart
      refine lookedUp_of_locates ?_
      have hcend : c.end_ > a := by
        have := hord.2.2.1
        omega
      have hnext : m.next (some c.id) = firstRef r := by rw [Map.next, after_middle hm h.nodup]
      have hsame := search_upto hcend b none (hm ▸ h.nodup)
      rw [hnext, hm, hsame, ← hm]
      exact hfirst

end Lookup

/-! ## Changing the list -/

section Changes
variable {m : Map} {b r es : List Entry} {e x y : Entry}

/-- Entries `es'` in the places of `es`. -/
structure Entry.SamePlace (e e' : Entry) : Prop where
  id : e'.id = e.id
  start : e'.start = e.start
  end_ : e'.end_ = e.end_

theorem ids_touch (h : List.Forall₂ Entry.SamePlace es es') : ids es' = ids es := by
  induction h with
  | nil => rfl
  | cons hx _ ih => rw [ids_cons, ids_cons, hx.id, ih]

theorem ordered_touch (h : List.Forall₂ Entry.SamePlace es es') {hi lo : Nat} :
    Ordered hi lo es → Ordered hi lo es' := by
  induction h generalizing lo with
  | nil => exact id
  | cons hx _ ih =>
    rw [ordered_cons, ordered_cons, hx.start, hx.end_]
    exact fun ho => ⟨ho.1, ho.2.1, ho.2.2.1, ih ho.2.2.2⟩

theorem total_touch (h : List.Forall₂ Entry.SamePlace es es') : total es' = total es := by
  induction h with
  | nil => rfl
  | cons hx _ ih => rw [total_cons, total_cons, hx.start, hx.end_, ih]

theorem linked_touch (h : Linked m) (ht : List.Forall₂ Entry.SamePlace m.entries es') :
    Linked { m with entries := es' } where
  ordered := ordered_touch ht h.ordered
  nodup := ids_touch ht ▸ h.nodup
  fresh := ids_touch ht ▸ h.fresh
  nentries := ht.length_eq ▸ h.nentries
  hint i hi := ids_touch ht ▸ h.hint i hi
  firstFree i hi := ids_touch ht ▸ h.firstFree i hi
  bound := h.bound

/-- `x` and `y` are the two parts of `e`, one of them under a new name. -/
structure Splits (n : Nat) (e x y : Entry) : Prop where
  start : x.start = e.start
  middle : y.start = x.end_
  end_ : y.end_ = e.end_
  left : e.start < x.end_
  right : x.end_ < e.end_
  names : x.id = n ∧ y.id = e.id ∨ x.id = e.id ∧ y.id = n

theorem Splits.perm {n : Nat} (h : Splits n e x y) (b r : List Entry) :
    (ids (b ++ x :: y :: r)).Perm (n :: ids (b ++ e :: r)) := by
  simp only [ids_append, ids_cons]
  rcases h.names with ⟨hx, hy⟩ | ⟨hx, hy⟩
  · rw [hx, hy]
    exact List.perm_middle
  · rw [hx, hy]
    exact ((List.Perm.swap n e.id (ids r)).append_left (ids b)).trans List.perm_middle

theorem ordered_split {n hi lo : Nat} (h : Ordered hi lo (b ++ e :: r)) (hs : Splits n e x y) :
    Ordered hi lo (b ++ x :: y :: r) := by
  rw [ordered_append] at h ⊢
  obtain ⟨hb, h1, h2, h3, h4⟩ := h
  have hl := hs.left
  have hr := hs.right
  refine ⟨hb, ?_, ?_, ?_, ?_, ?_, ?_, ?_⟩
  · rw [hs.start]; exact h1
  · rw [hs.start]; exact hl
  · omega
  · rw [hs.middle]
  · rw [hs.middle, hs.end_]; exact hr
  · rw [hs.end_]; exact h3
  · rw [hs.end_]; exact h4

theorem total_split {n : Nat} (hs : Splits n e x y) : total (b ++ x :: y :: r) = total (b ++ e :: r) := by
  simp only [total_append, total_cons, hs.start, hs.middle, hs.end_]
  omega

theorem linked_grow (h : Linked m) (hord : Ordered m.maxOffset m.minOffset es)
    (hp : (ids es).Perm (m.nextId :: ids m.entries)) : Linked { m.linked with entries := es } := by
  have hnew : m.nextId ∉ ids m.entries := fun hin => Nat.lt_irrefl _ (h.fresh _ hin)
  have hlive : ∀ q, Live m.entries q → Live es q := fun q hq i hi => hp.mem_iff.2 (List.mem_cons_of_mem _ (hq i hi))
  refine ⟨hord, hp.nodup_iff.2 (List.nodup_cons.2 ⟨hnew, h.nodup⟩), fun i hi => ?_, ?_, hlive _ h.hint,
    hlive _ h.firstFree, h.bound⟩
  · show i < m.nextId + 1
    rcases List.mem_cons.1 (hp.mem_iff.1 hi) with rfl | hi
    · exact Nat.lt_succ_self _
    · exact Nat.lt_succ_of_lt (h.fresh i hi)
  · have hlen := hp.length_eq
    simp only [ids, List.length_map, List.length_cons] at hlen
    show m.nentries + 1 = _
    rw [h.nentries, hlen]
    rfl

theorem linked_split (h : Linked m) (hm : m.entries = b ++ e :: r) (hs : Splits m.nextId e x y) :
    Linked { m.linked with entries := b ++ x :: y :: r } :=
  linked_grow h (ordered_split (hm ▸ h.ordered) hs) (hm ▸ hs.perm b r)

theorem linked_insert (h : Linked m) (hm : m.entries = b ++ r) (hid : x.id = m.nextId) (hx : x.start < x.end_)
    (hmin : m.minOffset ≤ x.start) (hmax : x.end_ ≤ m.maxOffset) (hb : ∀ e ∈ b, e.end_ ≤ x.start)
    (hr : ∀ e ∈ r.head?, x.end_ ≤ e.start) : Linked { m.linked with entries := b ++ x :: r } := by
  obtain ⟨hob, hor⟩ := (ordered_append b r _).1 (hm ▸ h.ordered)
  refine linked_grow h ((ordered_append b (x :: r) _).2 ⟨hob, lastEnd_le hmin hb, hx, hmax, hor.raise hr⟩) ?_
  rw [hm, ids_append, ids_append, ids_cons, hid]
  exact List.perm_middle

/-- An entry that neither hint points to is taken out. -/
theorem linked_unlink (h : Linked m) (hm : m.entries = b ++ e :: r) (hh : m.hint ≠ some e.id)
    (hf : m.firstFree ≠ some e.id) : Linked { m with nentries := m.nentries - 1, entries := b ++ r } := by
  have hp : (ids m.entries).Perm (e.id :: ids (b ++ r)) := by
    rw [hm, ids_append, ids_append, ids_cons]
    exact List.perm_middle
  have hlive : ∀ q, q ≠ some e.id → Live m.entries q → Live (b ++ r) q := fun q hne hq i hi => by
    rcases List.mem_cons.1 (hp.mem_iff.1 (hq i hi)) with rfl | hin
    · exact absurd hi hne
    · exact hin
  obtain ⟨hob, h1, h2, h3, hor⟩ := (ordered_append b (e :: r) _).1 (hm ▸ h.ordered)
  have hord : Ordered m.maxOffset m.minOffset (b ++ r) := by
    refine (ordered_append b r _).2 ⟨hob, hor.raise fun x hx => ?_⟩
    have := hor.mem (List.mem_of_head? hx)
    omega
  refine ⟨hord, (List.nodup_cons.1 (hp.nodup_iff.1 h.nodup)).2, fun i hi => ?_, ?_, hlive _ hh h.hint,
    hlive _ hf h.firstFree, h.bound⟩
  · exact h.fresh i (hp.mem_iff.2 (List.mem_cons_of_mem _ hi))
  · show m.nentries - 1 = _
    rw [h.nentries, hm]
    simp only [List.length_append, List.length_cons]
    omega

theorem linked_extend (h : Linked m) (hm : m.entries = b ++ e :: r) (end_ : Nat) (hlt : e.start < end_)
    (hmax : end_ ≤ m.maxOffset) (hr : ∀ x ∈ r.head?, end_ ≤ x.start) :
    Linked { m with entries := b ++ { e with end_ } :: r } := by
  have hids : ids (b ++ { e with end_ } :: r) = ids m.entries := by simp [hm]
  obtain ⟨hob, h1, h2, h3, hor⟩ := (ordered_append b (e :: r) _).1 (hm ▸ h.ordered)
  exact {
    ordered := (ordered_append b _ _).2 ⟨hob, h1, hlt, hmax, hor.raise hr⟩
    nodup := hids ▸ h.nodup
    fresh := hids ▸ h.fresh
    nentries := by rw [show m.nentries = _ from h.nentries, hm]; simp
    hint := fun i hi => hids ▸ h.hint i hi
    firstFree := fun i hi => hids ▸ h.firstFree i hi
    bound := h.bound }

end Changes

end BsdKernel.VmMap
