import BsdKernel.Lib.Ring
import BsdKernel.Vm.MapLinked
/-!
# The lookup through the links

`vm_map_lookup_entry` of `kern/vm/vm_map.c` on the entries as they lie in memory:
a ring of nodes through the header of the map, searched from the hint on or from
the header up to the hint. `lookup_refines` shows it to be the lookup on lists
that the other operations are modelled with, and `vm_map_lookup_entry_scan` that
it is a search of the whole ring whatever the hint is.
-/

namespace BsdKernel.VmMap

open BsdKernel.Lib

variable {es : List Entry}

/-! ## The code -/

/-- The fields of `struct vm_map_entry` that a lookup reads. -/
structure Node where
  start : Nat
  end_ : Nat
  next : Ref
  prev : Ref
  deriving DecidableEq, Repr

/-- A map in memory: `header`, the entries at their addresses, and `hint`. -/
structure Nodes where
  header : Node
  entry : Nat → Node
  hint : Ref

/-- The node pointed to. -/
def Nodes.node (n : Nodes) : Ref → Node
  | none => n.header
  | some i => n.entry i

/-- A round of the loop that searches linearly for `address` up to `last`. -/
def searchRound (n : Nodes) (address : Nat) (last cur : Ref) : Ref ⊕ (Bool × Ref) :=
  if cur ≠ last then
    if (n.node cur).end_ > address then
      if address ≥ (n.node cur).start then .inr (true, cur) else .inr (false, (n.node cur).prev)
    else .inl (n.node cur).next
  else .inr (false, (n.node cur).prev)

/-- The search from `cur` up to `last`, and `SAVE_HINT`. -/
def searchFrom (fuel : Nat) (n : Nodes) (address : Nat) (cur last : Ref) : Option (Bool × Ref × Nodes) :=
  (loop (searchRound n address last) fuel cur).map fun (found, entry) => (found, entry, { n with hint := entry })

/-- `vm_map_lookup_entry`: the result, `*entry` and the map. -/
def lookupNodes (fuel : Nat) (n : Nodes) (address : Nat) : Option (Bool × Ref × Nodes) :=
  let cur := if n.hint = none then n.header.next else n.hint
  if address ≥ (n.node cur).start then
    if cur ≠ none ∧ (n.node cur).end_ > address then some (true, cur, n)
    else searchFrom fuel n address cur none
  else searchFrom fuel n address n.header.next (n.node cur).next

/-- A plain linear scan from the head of the list. -/
def scanNodes (fuel : Nat) (n : Nodes) (address : Nat) : Option (Bool × Ref) :=
  loop (searchRound n address none) fuel n.header.next

/-! ## The links and the list -/

/-- The nodes are those of the map. -/
structure Represents (n : Nodes) (m : Map) : Prop where
  header_start : n.header.start = m.minOffset
  header_end : n.header.end_ = m.maxOffset
  hint : n.hint = m.hint
  start : ∀ e ∈ m.entries, (n.entry e.id).start = e.start
  end_ : ∀ e ∈ m.entries, (n.entry e.id).end_ = e.end_
  ring : Ring (fun r => (n.node r).next) (fun r => (n.node r).prev) (ids m.entries)

section Refinement
variable {n : Nodes} {m : Map} {a fuel : Nat} {b r : List Entry} {e : Entry}
variable {hi lo : Nat}

theorem head_ids (es : List Entry) : (ids es).head? = firstRef es := by
  cases es <;> rfl

theorem getLast_ids (es : List Entry) : (ids es).getLast? = lastRef es := by
  simp [ids, lastRef, List.getLast?_map]

theorem Represents.next (hr : Represents n m) (hm : m.entries = b ++ e :: r) : (n.entry e.id).next = firstRef r := by
  rw [← head_ids]
  exact hr.ring.next_elem (b := ids b) (a := e.id) (by rw [hm, ids_append, ids_cons])

theorem Represents.prev (hr : Represents n m) (hm : m.entries = b ++ e :: r) : (n.entry e.id).prev = lastRef b := by
  rw [← getLast_ids]
  exact hr.ring.prev_elem (b := ids b) (a := e.id) (by rw [hm, ids_append, ids_cons])

theorem Represents.first (hr : Represents n m) : n.header.next = firstRef m.entries := by
  rw [← head_ids]
  exact hr.ring.next_head

theorem Represents.last (hr : Represents n m) : n.header.prev = lastRef m.entries := by
  rw [← getLast_ids]
  exact hr.ring.prev_head

/-- The loop is the search of the list; it does not pass the header, because `last`
is the header or an entry that ends after `a` stands before `last`. -/
theorem loop_search (hr : Represents n m) (last : Ref) (r : List Entry) :
    ∀ b fuel, m.entries = b ++ r → r.length < fuel → (last = none ∨ ∃ c ∈ r, a < c.end_) →
      loop (searchRound n a last) fuel (firstRef r) = some (search a last (lastRef b) r) := by
  induction r with
  | nil =>
    intro b fuel hm hfuel hlast
    obtain ⟨fuel, rfl⟩ := Nat.exists_eq_succ_of_ne_zero (Nat.ne_of_gt hfuel)
    obtain rfl : last = none := hlast.resolve_right (by simp)
    have hprev : (n.node none).prev = lastRef b := by
      rw [Nodes.node, hr.last, hm, List.append_nil]
    simp [loop, searchRound, firstRef, search, hprev]
  | cons e r ih =>
    intro b fuel hm hfuel hlast
    obtain ⟨fuel, rfl⟩ := Nat.exists_eq_succ_of_ne_zero (Nat.ne_of_gt (Nat.lt_of_le_of_lt (Nat.zero_le _) hfuel))
    have hmem : e ∈ m.entries := by rw [hm]; simp
    have hcur : firstRef (e :: r) = some e.id := rfl
    rw [hcur, loop, search, searchRound]
    simp only [Nodes.node, hr.end_ e hmem, hr.start e hmem, hr.prev hm, hr.next hm]
    by_cases hstop : last = some e.id
    · simp [hstop]
    · rw [if_pos (Ne.symm hstop), if_neg hstop]
      by_cases hend : e.end_ > a
      · rw [if_pos hend, if_pos hend]
        split_ifs <;> rfl
      · rw [if_neg hend, if_neg hend]
        have hb : lastRef (b ++ [e]) = some e.id := by simp [lastRef]
        rw [← hb]
        apply ih (b ++ [e]) fuel (by simpa using hm) (by simpa using hfuel)
        refine hlast.imp_right ?_
        rintro ⟨c, hc, hac⟩
        rcases List.mem_cons.1 hc with rfl | hc
        · exact absurd hac hend
        · exact ⟨c, hc, hac⟩

/-- The lookup in memory is the lookup in the list. -/
theorem lookup_refines (h : Linked m) (hr : Represents n m) (hfuel : m.entries.length < fuel) :
    lookupNodes fuel n a =
      some ((vmMapLookupEntry m a).1, (vmMapLookupEntry m a).2.1, { n with hint := (vmMapLookupEntry m a).2.2.hint }) := by
  have hfirst : m.next none = n.header.next := by rw [hr.first, Map.next, Map.after]
  unfold lookupNodes vmMapLookupEntry searchFrom
  simp only [hr.hint, ← hfirst]
  rcases searched h.hint with ⟨he, hc⟩ | ⟨b, c, r, hm, hc⟩
  · have hstart : (n.node none).start = m.start none := hr.header_start
    have hend : (n.node none).end_ = m.end_ none := hr.header_end
    rw [hc, hstart, hend]
    split_ifs with ha hnone
    · exact absurd rfl hnone.1
    · have hloop := loop_search (a := a) hr none [] m.entries fuel (by simp) (by simp; omega) (.inl rfl)
      rw [show firstRef [] = none from rfl] at hloop
      simp [hloop, Map.prev, Map.at_]
    · have hnext : m.next none = none := by simp [Map.next, Map.after, he, firstRef]
      have hlast : (n.node none).next = none := hfirst.symm.trans hnext
      have hloop := loop_search (a := a) hr none [] m.entries fuel (by simp) (by simp; omega) (.inl rfl)
      rw [show firstRef [] = none from rfl] at hloop
      simp [hnext, hlast, hloop, he, search, lastRef]
  · have hmem : c ∈ m.entries := by rw [hm]; simp
    have hat : m.at_ (some c.id) = (b, c :: r) := at_middle hm h.nodup
    rw [hc, start_middle hm h.nodup, end_middle hm h.nodup]
    simp only [Nodes.node, hr.start c hmem, hr.end_ c hmem, hr.next hm]
    split_ifs with ha hquick
    · rw [← hr.hint]
    · have hloop := loop_search (a := a) hr none (c :: r) b fuel hm (by rw [hm] at hfuel; simp at hfuel ⊢; omega) (.inl rfl)
      rw [show firstRef (c :: r) = some c.id from rfl] at hloop
      simp [hloop, Map.prev, hat]
    · have hcend : a < c.end_ := by
        have := h.ordered.mem hmem
        omega
      have hloop := loop_search (a := a) hr (firstRef r) m.entries [] fuel rfl hfuel (.inr ⟨c, hmem, hcend⟩)
      have hnext : m.next (some c.id) = firstRef r := by rw [Map.next, after_middle hm h.nodup]
      rw [hfirst, hr.first, hloop, hnext]
      rfl

theorem Ordered.holder (ho : Ordered hi lo es) {e e' : Entry} (he : e ∈ es) (he' : e' ∈ es)
    (h : e.start ≤ a ∧ a < e.end_) (h' : e'.start ≤ a ∧ a < e'.end_) : e = e' := by
  have hR : ∀ ⦃x⦄, x ∈ es → ∀ ⦃y⦄, y ∈ es → x = y ∨ x.end_ ≤ y.start ∨ y.end_ ≤ x.start :=
    List.Pairwise.forall_of_forall_of_flip (fun _ _ => .inl rfl) (ho.pairwise.imp fun hxy => .inr (.inl hxy.2))
      (ho.pairwise.imp fun hxy => .inr (.inr hxy.2))
  rcases hR he he' with heq | hlt | hlt
  · exact heq
  · omega
  · omega

/-- Entries in order hold an address at one place, or it falls behind one. -/
theorem locates_unique (ho : Ordered hi lo es) {found found' : Bool} {entry entry' : Ref}
    (h : Locates es a found entry) (h' : Locates es a found' entry') : found = found' ∧ entry = entry' := by
  -- An address before the end of the list is in `b`, and one before the start of the rest is not.
  have key : ∀ {found : Bool} {entry : Ref}, Locates es a found entry →
      (found = true → ∃ e ∈ es, e.start ≤ a ∧ a < e.end_ ∧ entry = some e.id) ∧
      (found = false → (∀ e ∈ es, a < e.end_ → a < e.start) ∧ entry = lastRef (es.filter (·.end_ ≤ a))) := by
    rintro found entry ⟨b, r, rfl, rfl, hif⟩
    cases found with
    | true =>
      obtain ⟨e, he, h1, h2⟩ := hif
      exact ⟨fun _ => ⟨e, List.mem_append_left _ (List.mem_of_getLast? he), h1, h2, by simp [lastRef, he]⟩, by simp⟩
    | false =>
      obtain ⟨hb, hrest⟩ : (∀ e ∈ b, e.end_ ≤ a) ∧ ∀ e ∈ r, a < e.start := by simpa using hif
      refine ⟨by simp, fun _ => ⟨fun e he hlt => ?_, ?_⟩⟩
      · rcases List.mem_append.1 he with he | he
        · have := hb e he
          omega
        · exact hrest e he
      · have hnone : r.filter (·.end_ ≤ a) = [] := by
          rw [List.filter_eq_nil_iff]
          intro e he
          have h1 := hrest e he
          have h2 := ho.mem (List.mem_append_right b he)
          simp only [decide_eq_true_eq]
          omega
        have hall : b.filter (·.end_ ≤ a) = b := List.filter_eq_self.2 fun e he => by simpa using hb e he
        rw [List.filter_append, hnone, hall, List.append_nil]
  obtain ⟨ht, hf⟩ := key h
  obtain ⟨ht', hf'⟩ := key h'
  cases found with
  | true =>
    obtain ⟨e, he, h1, h2, rfl⟩ := ht rfl
    cases found' with
    | true =>
      obtain ⟨e', he', h1', h2', rfl⟩ := ht' rfl
      rw [ho.holder he he' ⟨h1, h2⟩ ⟨h1', h2'⟩]
      exact ⟨rfl, rfl⟩
    | false =>
      have := (hf' rfl).1 e he h2
      omega
  | false =>
    cases found' with
    | true =>
      obtain ⟨e', he', h1', h2', rfl⟩ := ht' rfl
      have := (hf rfl).1 e' he' h2'
      omega
    | false => exact ⟨rfl, (hf rfl).2.trans (hf' rfl).2.symm⟩

theorem scanNodes_locates (h : Linked m) (hr : Represents n m) (hfuel : m.entries.length < fuel) :
    ∃ found entry, scanNodes fuel n a = some (found, entry) ∧ Locates m.entries a found entry := by
  have hloop := loop_search (a := a) hr none m.entries [] fuel rfl hfuel (.inl rfl)
  have hspec := search_spec (a := a) m.entries [] m.minOffset (by simp) h.ordered
  refine ⟨_, _, ?_, hspec⟩
  rw [scanNodes, hr.first, hloop]

/-- The answer in terms of the entries: the one that holds the address, or the last
that ends at or before it, or the header. -/
def Answer (es : List Entry) (a : Nat) (found : Bool) (entry : Ref) : Prop :=
  if found then ∃ e ∈ es, entry = some e.id ∧ e.start ≤ a ∧ a < e.end_
  else (∀ e ∈ es, ¬(e.start ≤ a ∧ a < e.end_)) ∧
    ((entry = none ∧ ∀ e ∈ es, a < e.end_) ∨
      ∃ e ∈ es, entry = some e.id ∧ e.end_ ≤ a ∧ ∀ x ∈ es, x.end_ ≤ a → x.end_ ≤ e.end_)

theorem answer_of_locates (ho : Ordered hi lo es) {found : Bool} {entry : Ref} (h : Locates es a found entry) :
    Answer es a found entry := by
  obtain ⟨b, r, rfl, rfl, hif⟩ := h
  cases found with
  | true =>
    obtain ⟨e, he, h1, h2⟩ := hif
    exact ⟨e, List.mem_append_left _ (List.mem_of_getLast? he), by simp [lastRef, he], h1, h2⟩
  | false =>
    obtain ⟨hb, hrest⟩ : (∀ e ∈ b, e.end_ ≤ a) ∧ ∀ e ∈ r, a < e.start := by simpa using hif
    have hr : ∀ e ∈ r, a < e.end_ := fun e he => by
      have h1 := hrest e he
      have h2 := ho.mem (List.mem_append_right b he)
      omega
    refine ⟨fun e he => ?_, ?_⟩
    · rcases List.mem_append.1 he with he | he
      · have := hb e he
        omega
      · have := hrest e he
        omega
    · rcases List.eq_nil_or_concat b with rfl | ⟨b', z, rfl⟩
      · exact .inl ⟨rfl, hr⟩
      · refine .inr ⟨z, by simp, by simp [lastRef], hb z (by simp), fun x hx hxa => ?_⟩
        rcases List.mem_append.1 hx with hx | hx
        · -- `z` is the last of the entries before the address.
          rw [List.concat_eq_append] at hx ho
          rcases List.mem_append.1 hx with hx | hx
          · have hp := (List.pairwise_append.1 (List.pairwise_append.1 ho.pairwise).1).2.2 x hx z (by simp)
            have := ho.mem (e := z) (by simp)
            omega
          · rw [List.mem_singleton.1 hx]
        · have := hr x hx
          omega

/-- Every map whose entries are in order, with any hint: the lookup ends with the
result of a scan of the whole ring, and only the hint of the map is another one. -/
theorem vm_map_lookup_entry_scan (h : Linked m) (hr : Represents n m) {hint : Ref} (hhint : Live m.entries hint)
    (a : Nat) (hfuel : m.entries.length < fuel) :
    ∃ found entry hint', lookupNodes fuel { n with hint := hint } a = some (found, entry, { n with hint := hint' }) ∧
      scanNodes fuel n a = some (found, entry) ∧ Answer m.entries a found entry := by
  have h' : Linked { m with hint := hint } := h.withHint hhint
  have hr' : Represents { n with hint := hint } { m with hint := hint } :=
    { header_start := hr.header_start, header_end := hr.header_end, hint := rfl, start := hr.start, end_ := hr.end_
      ring := hr.ring }
  have hlookup := lookup_refines (a := a) h' hr' hfuel
  have hloc := (lookup_spec h' a).locates
  obtain ⟨found, entry, hscan, hloc'⟩ := scanNodes_locates (a := a) h hr hfuel
  obtain ⟨hf, he⟩ := locates_unique h.ordered hloc hloc'
  refine ⟨found, entry, (vmMapLookupEntry { m with hint := hint } a).2.2.hint, ?_, hscan,
    answer_of_locates h.ordered hloc'⟩
  rw [hlookup, hf, he]

end Refinement

/-! ## An example -/

/-- Two entries, at 10 to 20 and at 30 to 40. -/
def twoEntries : Map :=
  let e : Entry := ⟨0, 10, 20, .vmObject none, 0, false, false, 7, 7, .copy, 0⟩
  { vmMapInit 0 100 with entries := [e, { e with id := 1, start := 30, end_ := 40 }], nentries := 2, nextId := 2 }

/-- The nodes of `twoEntries`. -/
def twoNodes : Nodes where
  header := ⟨0, 100, some 0, some 1⟩
  entry := fun i => if i = 0 then ⟨10, 20, some 1, none⟩ else ⟨30, 40, none, some 0⟩
  hint := none

theorem twoEntries_linked : Linked twoEntries where
  ordered := ⟨by decide, by decide, by decide, by decide, by decide, by decide, trivial⟩
  nodup := by decide
  fresh := by decide
  nentries := rfl
  hint := live_none _
  firstFree := live_none _
  bound := by decide

theorem twoNodes_represents : Represents twoNodes twoEntries where
  header_start := rfl
  header_end := rfl
  hint := rfl
  start := by decide
  end_ := by decide
  ring := by
    refine ⟨by decide, fun b r hl => ?_, fun b r hl => ?_⟩
    all_goals
      have hids : ids twoEntries.entries = [0, 1] := rfl
      rw [hids] at hl
      match b, hl with
      | [], hl => rw [← show [0, 1] = r from hl]; rfl
      | [x], hl =>
        obtain ⟨rfl, rfl⟩ : 0 = x ∧ [1] = r := by simpa using hl
        rfl
      | [x, y], hl =>
        obtain ⟨rfl, rfl, rfl⟩ : 0 = x ∧ 1 = y ∧ [] = r := by simpa using hl
        rfl

/-- With the second entry as the hint, 25 is found to be behind the first. -/
theorem lookup_behind_first :
    ∃ hint', lookupNodes 3 { twoNodes with hint := some 1 } 25 = some (false, some 0, { twoNodes with hint := hint' }) := by
  obtain ⟨found, entry, hint', hlookup, hscan, -⟩ :=
    @vm_map_lookup_entry_scan twoNodes twoEntries 3 twoEntries_linked twoNodes_represents (some 1)
      (live_some (e := ⟨1, 30, 40, .vmObject none, 0, false, false, 7, 7, .copy, 0⟩) (by decide)) 25 (by decide)
  have hval : scanNodes 3 twoNodes 25 = some (false, some 0) := by decide
  obtain ⟨rfl, rfl⟩ := Prod.mk.inj (Option.some.inj (hval.symm.trans hscan))
  exact ⟨hint', hlookup⟩

end BsdKernel.VmMap
