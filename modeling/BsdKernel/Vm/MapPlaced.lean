import BsdKernel.Vm.MapSeen
/-!
# Maps with empty entries

`vm_map_pageable` on an empty range leaves an entry without addresses, so a map
need not be `Linked`. `Placed` is what such a map still is: its entries do not
overlap and are in order, some of them empty. Lookups and clips are shown for it
here; what an address sees is not changed by them.
-/

namespace BsdKernel.VmMap

/-- What places an entry in the list. -/
def Entry.place (e : Entry) : Nat × Nat × Nat := (e.id, e.start, e.end_)

structure Placed (m : Map) : Prop where
  le : ∀ e ∈ m.entries, e.start ≤ e.end_
  order : m.entries.Pairwise fun a b => a.end_ ≤ b.start
  inside : ∀ e ∈ m.entries, m.minOffset ≤ e.start ∧ e.end_ ≤ m.maxOffset
  nodup : (ids m.entries).Nodup
  fresh : ∀ i ∈ ids m.entries, i < m.nextId
  hint : Live m.entries m.hint

theorem Linked.placed {m : Map} (h : Linked m) : Placed m where
  le _ he := Nat.le_of_lt (h.ordered.mem he).2.1
  order := h.ordered.pairwise.imp And.right
  inside _ he := ⟨(h.ordered.mem he).1, (h.ordered.mem he).2.2⟩
  nodup := h.nodup
  fresh := h.fresh
  hint := h.hint

section Placed
variable {m : Map} {w : Space} {b r es es' : List Entry} {e x y : Entry} {a : Nat}

/-- Entries in the same places. -/
theorem Placed.congr (h : Placed m) (he : es.map Entry.place = m.entries.map Entry.place) :
    Placed { m with entries := es } := by
  have hids : ids es = ids m.entries := by
    have := congrArg (List.map Prod.fst) he
    simpa [ids, List.map_map, Function.comp_def, Entry.place] using this
  have hmem : ∀ x ∈ es, ∃ y ∈ m.entries, y.start = x.start ∧ y.end_ = x.end_ := fun x hx => by
    obtain ⟨y, hy, hxy⟩ := List.mem_map.1 (he ▸ List.mem_map_of_mem hx)
    obtain ⟨-, hs, ht⟩ : y.id = x.id ∧ y.start = x.start ∧ y.end_ = x.end_ := by simpa [Entry.place] using hxy
    exact ⟨y, hy, hs, ht⟩
  refine ⟨fun x hx => ?_, ?_, fun x hx => ?_, ?_, ?_, ?_⟩
  · obtain ⟨y, hy, hs, ht⟩ := hmem x hx
    rw [← hs, ← ht]
    exact h.le y hy
  · have hplaces : ∀ l : List Entry, l.Pairwise (fun a b => a.end_ ≤ b.start) ↔
        (l.map Entry.place).Pairwise fun p q => p.2.2 ≤ q.2.1 := fun l => by rw [List.pairwise_map]; rfl
    refine (hplaces es).2 ?_
    rw [he]
    exact (hplaces _).1 h.order
  · obtain ⟨y, hy, hs, ht⟩ := hmem x hx
    rw [← hs, ← ht]
    exact h.inside y hy
  · exact hids ▸ h.nodup
  · exact hids ▸ h.fresh
  · exact fun i hi => hids ▸ h.hint i hi

/-- Two parts of an entry in its place, one of them under a new name. -/
theorem Placed.split (h : Placed (w.withEntries (b ++ e :: r)).map) (hx : x.start = e.start) (hmid : y.start = x.end_)
    (hy : y.end_ = e.end_) (hlo : e.start ≤ x.end_) (hhi : x.end_ ≤ e.end_)
    (hid : x.id = w.map.nextId ∧ y.id = e.id ∨ x.id = e.id ∧ y.id = w.map.nextId) :
    Placed ((w.cloned e).withEntries (b ++ x :: y :: r)).map := by
  have hperm : (ids (b ++ x :: y :: r)).Perm (w.map.nextId :: ids (b ++ e :: r)) := by
    simp only [ids_append, ids_cons]
    rcases hid with ⟨hxi, hyi⟩ | ⟨hxi, hyi⟩
    · rw [hxi, hyi]
      exact List.perm_middle
    · rw [hxi, hyi]
      exact ((List.Perm.swap _ _ _).append_left _).trans List.perm_middle
  have hmem : ∀ i ∈ ids (b ++ x :: y :: r), i = w.map.nextId ∨ i ∈ ids (b ++ e :: r) := fun i hi =>
    List.mem_cons.1 (hperm.mem_iff.1 hi)
  obtain ⟨ho1, ho2, ho3⟩ := List.pairwise_append.1 h.order
  obtain ⟨ho4, ho5⟩ := List.pairwise_cons.1 ho2
  have hin := h.inside e (by simp [Space.withEntries])
  refine ⟨fun u hu => ?_, ?_, fun u hu => ?_, ?_, fun i hi => ?_, fun i hi => ?_⟩
  · simp only [Space.withEntries, List.mem_append, List.mem_cons] at hu
    rcases hu with hu | rfl | rfl | hu
    · exact h.le u (by simp [Space.withEntries, hu])
    · omega
    · omega
    · exact h.le u (by simp [Space.withEntries, hu])
  · refine List.pairwise_append.2 ⟨ho1, List.pairwise_cons.2 ⟨fun u hu => ?_, List.pairwise_cons.2 ⟨fun u hu => ?_, ho5⟩⟩, ?_⟩
    · rcases List.mem_cons.1 hu with rfl | hu
      · omega
      · have := ho4 u hu
        omega
    · have := ho4 u hu
      omega
    · intro u hu v hv
      have := ho3 u hu e (by simp)
      rcases List.mem_cons.1 hv with rfl | hv
      · omega
      · rcases List.mem_cons.1 hv with rfl | hv
        · omega
        · exact ho3 u hu v (by simp [hv])
  · have hbound : (w.withEntries (b ++ e :: r)).map.minOffset = w.map.minOffset ∧
        (w.withEntries (b ++ e :: r)).map.maxOffset = w.map.maxOffset := ⟨rfl, rfl⟩
    simp only [Space.withEntries, List.mem_append, List.mem_cons] at hu
    show w.map.minOffset ≤ u.start ∧ u.end_ ≤ w.map.maxOffset
    rcases hu with hu | rfl | rfl | hu
    · exact h.inside u (by simp [Space.withEntries, hu])
    · omega
    · omega
    · exact h.inside u (by simp [Space.withEntries, hu])
  · refine hperm.nodup_iff.2 (List.nodup_cons.2 ⟨fun hn => ?_, h.nodup⟩)
    exact Nat.lt_irrefl _ (h.fresh _ hn)
  · rcases hmem i hi with rfl | hi
    · exact Nat.lt_succ_self _
    · exact Nat.lt_succ_of_lt (h.fresh i hi)
  · exact hperm.mem_iff.2 (List.mem_cons_of_mem _ (h.hint i hi))

theorem Placed.holder (h : Placed m) (hx : x ∈ m.entries) (hy : y ∈ m.entries) (hxa : x.start ≤ a ∧ a < x.end_)
    (hya : y.start ≤ a ∧ a < y.end_) : x = y := by
  have hR : ∀ ⦃u⦄, u ∈ m.entries → ∀ ⦃v⦄, v ∈ m.entries → u = v ∨ u.end_ ≤ v.start ∨ v.end_ ≤ u.start :=
    List.Pairwise.forall_of_forall_of_flip (fun _ _ => .inl rfl) (h.order.imp fun huv => .inr (.inl huv))
      (h.order.imp fun huv => .inr (.inr huv))
  rcases hR hx hy with heq | hlt | hlt
  · exact heq
  · omega
  · omega

/-! ## Lookup -/

/-- What a search finds holds the address, and where it ends is in the list. -/
theorem search_sound (last : Ref) (r : List Entry) :
    ∀ prev, ((search a last prev r).1 = true → ∃ e ∈ r, e.start ≤ a ∧ a < e.end_) ∧
      ((search a last prev r).2 = prev ∨ ∃ e ∈ r, (search a last prev r).2 = some e.id) := by
  induction r with
  | nil => intro prev; exact ⟨by simp [search], .inl rfl⟩
  | cons e r ih =>
    intro prev
    rw [search]
    split_ifs with hlast hend hstart
    · exact ⟨by simp, .inl rfl⟩
    · exact ⟨fun _ => ⟨e, by simp, hstart, hend⟩, .inr ⟨e, by simp, rfl⟩⟩
    · exact ⟨by simp, .inl rfl⟩
    · obtain ⟨h1, h2⟩ := ih (some e.id)
      refine ⟨fun h => ?_, .inr ?_⟩
      · obtain ⟨x, hx, hin⟩ := h1 h
        exact ⟨x, by simp [hx], hin⟩
      · rcases h2 with h2 | ⟨x, hx, h2⟩
        · exact ⟨e, by simp, h2⟩
        · exact ⟨x, by simp [hx], h2⟩

theorem search_complete (b : List Entry) (hb : ∀ x ∈ b, x.end_ ≤ e.start) (he : e.start ≤ a ∧ a < e.end_) :
    ∀ prev, search a none prev (b ++ e :: r) = (true, some e.id) := by
  induction b with
  | nil => intro prev; simp [search, he.1, he.2]
  | cons x b ih =>
    intro prev
    have hx := hb x (by simp)
    rw [List.cons_append, search, if_neg (by simp), if_neg (by omega)]
    exact ih (fun y hy => hb y (by simp [hy])) _

theorem live_search {prev : Ref} (hprev : Live m.entries prev) (hr : ∀ e ∈ r, e ∈ m.entries) (last : Ref) :
    Live m.entries (search a last prev r).2 := by
  rcases (search_sound (a := a) last r prev).2 with h | ⟨e, he, h⟩
  · rwa [h]
  · rw [h]
    exact live_some (hr e he)

/-- A lookup changes the hint only, finds nothing but an entry that holds the
address, and finds the one that does. -/
structure Looked (m : Map) (a : Nat) (found : Bool) (entry : Ref) (m' : Map) : Prop where
  same : m' = { m with hint := m'.hint }
  live : Live m.entries m'.hint
  sound : found = true → ∃ e ∈ m.entries, e.start ≤ a ∧ a < e.end_
  complete : ∀ b e r, m.entries = b ++ e :: r → e.start ≤ a ∧ a < e.end_ → found = true ∧ entry = some e.id

theorem Placed.lookup (h : Placed m) (a : Nat) :
    Looked m a (vmMapLookupEntry m a).1 (vmMapLookupEntry m a).2.1 (vmMapLookupEntry m a).2.2 := by
  have hbefore : ∀ b e r, m.entries = b ++ e :: r → (∀ x ∈ b, x.end_ ≤ e.start) ∧ ∀ x ∈ r, e.end_ ≤ x.start :=
    fun b e r hm => by
      obtain ⟨-, h2, h3⟩ := List.pairwise_append.1 (hm ▸ h.order)
      exact ⟨fun x hx => h3 x hx e (by simp), (List.pairwise_cons.1 h2).1⟩
  unfold vmMapLookupEntry
  simp only
  rcases searched h.hint with ⟨he, hc⟩ | ⟨b, c, r, hm, hc⟩
  · have hnil : ∀ last, search a last none m.entries = (false, none) := fun last => by rw [he]; rfl
    have hprev : m.prev none = none := by simp [Map.prev, Map.at_, he, lastRef]
    have hrest : (m.at_ none).2 = [] := rfl
    rw [hc, hprev, hrest]
    split_ifs with h1 h2
    · exact absurd rfl h2.1
    all_goals
      simp only [hnil, search]
      exact ⟨rfl, live_none _, by simp, fun b e r hm _ => absurd (he ▸ hm) (by simp)⟩
  · have hmem : c ∈ m.entries := by rw [hm]; simp
    rw [hc, start_middle hm h.nodup, end_middle hm h.nodup]
    obtain ⟨hcb, hcr⟩ := hbefore b c r hm
    split_ifs with hstart hquick
    · -- The hint itself.
      refine ⟨rfl, h.hint, fun _ => ⟨c, hmem, hstart, hquick.2⟩, fun b' e r' hm' he => ⟨rfl, ?_⟩⟩
      rw [h.holder hmem (by rw [hm']; simp) ⟨hstart, hquick.2⟩ he]
    · -- From the hint to the end of the list.
      have hcend : c.end_ ≤ a := by
        by_contra hn
        exact hquick ⟨by simp, by omega⟩
      rw [Map.prev, at_middle hm h.nodup]
      have hsub : ∀ x ∈ c :: r, x ∈ m.entries := fun x hx => by
        rw [hm]
        exact List.mem_append_right b hx
      have hprev : Live m.entries (lastRef b) := hm ▸ live_lastRef b (c :: r)
      refine ⟨rfl, live_search hprev hsub none, fun hf => ?_, fun b' e r' hm' he => ?_⟩
      · obtain ⟨x, hx, hin⟩ := (search_sound (a := a) none (c :: r) (lastRef b)).1 hf
        exact ⟨x, hsub x hx, hin⟩
      · have hein : e ∈ b ++ c :: r := by rw [← hm, hm']; simp
        rcases List.mem_append.1 hein with heb | her
        · have := hcb e heb
          omega
        · rcases List.mem_cons.1 her with rfl | her
          · omega
          · obtain ⟨r1, r2, rfl⟩ := List.append_of_mem her
            have h1 := (hbefore (b ++ c :: r1) e r2 (by simpa using hm)).1
            have hfound := search_complete (r := r2) (c :: r1) (fun x hx => h1 x (List.mem_append_right b hx)) he (lastRef b)
            rw [List.cons_append] at hfound
            rw [hfound]
            exact ⟨rfl, rfl⟩
    · -- From the head up to the hint, which is behind the address.
      have hcend : c.end_ > a := by
        have := h.le c hmem
        omega
      have hnext : m.next (some c.id) = firstRef r := by rw [Map.next, after_middle hm h.nodup]
      have hupto : search a (firstRef r) none m.entries = search a none none m.entries := by
        rw [hm]
        exact search_upto hcend b none (hm ▸ h.nodup)
      rw [hnext, hupto]
      refine ⟨rfl, live_search (live_none _) (fun _ hx => hx) none, (search_sound (a := a) none m.entries none).1,
        fun b' e r' hm' he => ?_⟩
      have hfound := search_complete (r := r') b' (hbefore b' e r' hm').1 he none
      rw [hm', hfound]
      exact ⟨rfl, rfl⟩

end Placed

end BsdKernel.VmMap
