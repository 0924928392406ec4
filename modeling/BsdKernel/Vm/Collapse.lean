import BsdKernel.Vm.Object
/-!
# Collapsing changes nothing a process sees

Merging a backing object into its only parent and bypassing one whose pages are
all shadowed splice the backing object out of the parent's chain. `Spliced` says
what that means for the pages and links, and `visible_spliced` derives that every
object sees the same pages; the reference counts follow the pointers. The loop
ends because the parent's chain gets shorter (`collapse_keeps`).
-/

namespace BsdKernel.VmObject

variable {α : Type*}
variable {i : Id} {offset : Nat}

/-! ## Pages -/

section Pages
variable {memq ps : List (Page α)} {p pp : Page α} {size offset backingOffset : Nat}

theorem resident_cons (p : Page α) (ps : List (Page α)) (offset : Nat) :
    resident (p :: ps) offset = if p.offset = offset then (if p.fake then none else some p.data) else resident ps offset := by
  by_cases h : p.offset = offset
  · simp [resident, vmPageLookup, h]
  · simp [resident, vmPageLookup, h]

theorem resident_eq_none (h : ∀ p ∈ ps, p.offset ≠ offset) : resident ps offset = none := by
  induction ps with
  | nil => rfl
  | cons p ps ih =>
    rw [resident_cons, if_neg (h p (by simp)), ih fun q hq => h q (by simp [hq])]

theorem resident_append (ps qs : List (Page α)) (h : ∀ p ∈ ps, p.offset ≠ offset) :
    resident (ps ++ qs) offset = resident qs offset := by
  induction ps with
  | nil => rfl
  | cons p ps ih =>
    rw [List.cons_append, resident_cons, if_neg (h p (by simp)), ih fun q hq => h q (by simp [hq])]

/-- A page elsewhere does not matter. -/
theorem resident_append_ne (ps : List (Page α)) (h : p.offset ≠ offset) :
    resident (ps ++ [p]) offset = resident ps offset := by
  induction ps with
  | nil => simp [resident, vmPageLookup, h]
  | cons q ps ih => rw [List.cons_append, resident_cons, resident_cons, ih]

theorem resident_eraseP_ne {newOffset : Nat} (ps : List (Page α)) (h : newOffset ≠ offset) :
    resident (ps.eraseP (·.offset == newOffset)) offset = resident ps offset := by
  induction ps with
  | nil => rfl
  | cons q ps ih =>
    by_cases hq : q.offset = newOffset
    · rw [List.eraseP_cons_of_pos (by simp [hq]), resident_cons, if_neg (by omega)]
    · rw [List.eraseP_cons_of_neg (by simp [hq]), resident_cons, resident_cons, ih]

theorem vmPageLookup_none : vmPageLookup memq offset = none ↔ ∀ p ∈ memq, p.offset ≠ offset := by
  simp [vmPageLookup]

theorem eraseP_offset (h : (memq.map Page.offset).Nodup) :
    ∀ q ∈ memq.eraseP (·.offset == offset), q.offset ≠ offset := by
  induction memq with
  | nil => simp
  | cons q ps ih =>
    rw [List.map_cons, List.nodup_cons] at h
    by_cases hq : q.offset = offset
    · rw [List.eraseP_cons_of_pos (by simp [hq])]
      intro r hr heq
      exact h.1 (by rw [hq, ← heq]; exact List.mem_map_of_mem hr)
    · rw [List.eraseP_cons_of_neg (by simp [hq])]
      intro r hr
      rcases List.mem_cons.1 hr with rfl | hr
      · exact hq
      · exact ih h.2 r hr

theorem nodup_append_page (h : (memq.map Page.offset).Nodup) (hp : ∀ q ∈ memq, q.offset ≠ p.offset) :
    ((memq ++ [p]).map Page.offset).Nodup := by
  rw [List.map_append, List.nodup_append]
  refine ⟨h, by simp, ?_⟩
  intro a ha b hb
  obtain ⟨q, hq, rfl⟩ := List.mem_map.1 ha
  obtain rfl : b = p.offset := by simpa using hb
  exact hp q hq

theorem nodup_eraseP (h : (memq.map Page.offset).Nodup) :
    ((memq.eraseP (·.offset == offset)).map Page.offset).Nodup :=
  h.sublist (List.eraseP_sublist.map _)

theorem movePages_nodup (ps : List (Page α)) (h : (memq.map Page.offset).Nodup) :
    ((movePages size backingOffset ps memq).map Page.offset).Nodup := by
  induction ps generalizing memq with
  | nil => exact h
  | cons p ps ih =>
    simp only [movePages]
    split
    · exact ih h
    cases hl : vmPageLookup memq (p.offset - backingOffset) with
    | none => exact ih (nodup_append_page h (vmPageLookup_none.1 hl))
    | some pp =>
      simp only
      split
      · exact ih h
      · exact ih (nodup_append_page (nodup_eraseP h) (eraseP_offset h))

/-- The pages of the parent after the move: its own, else those of the backing
object. -/
theorem resident_movePages (backingOffset : Nat) (ps : List (Page α)) (hm : (memq.map Page.offset).Nodup) (hp : (ps.map Page.offset).Nodup)
    (h : offset < size) :
    resident (movePages size backingOffset ps memq) offset =
      (resident memq offset).or (resident ps (offset + backingOffset)) := by
  induction ps generalizing memq with
  | nil => simp [movePages, resident, vmPageLookup]
  | cons p ps ih =>
    rw [List.map_cons, List.nodup_cons] at hp
    have hrest : p.offset = offset + backingOffset → resident ps (offset + backingOffset) = none := fun he =>
      resident_eq_none fun q hq heq => hp.1 (by rw [he, ← heq]; exact List.mem_map_of_mem hq)
    simp only [movePages]
    split
    · rw [ih hm hp.2, resident_cons, if_neg (by omega)]
    next hwin =>
    by_cases hat : p.offset = offset + backingOffset
    · have hnew : p.offset - backingOffset = offset := by omega
      rw [hnew, resident_cons, if_pos hat]
      cases hl : vmPageLookup memq offset with
      | none =>
        simp only
        rw [ih (nodup_append_page hm (vmPageLookup_none.1 hl)) hp.2, hrest hat, resident_append _ _ (vmPageLookup_none.1 hl),
          resident_eq_none (vmPageLookup_none.1 hl), resident_cons, if_pos rfl]
        simp
      | some pp =>
        simp only
        have hres : resident memq offset = if pp.fake then none else some pp.data := by rw [resident, hl]; rfl
        split
        · next hf =>
          rw [ih hm hp.2, hrest hat, hres, hf]
          simp
        · next hf =>
          refine (ih (nodup_append_page (p := ⟨offset, p.fake, p.data⟩) (nodup_eraseP hm) (eraseP_offset hm)) hp.2).trans ?_
          rw [hrest hat, resident_append _ _ (eraseP_offset hm), resident_cons, if_pos rfl, hres]
          simp [hf]
    · have hnew : p.offset - backingOffset ≠ offset := by omega
      rw [resident_cons, if_neg hat]
      cases hl : vmPageLookup memq (p.offset - backingOffset) with
      | none =>
        simp only
        rw [ih (nodup_append_page hm (vmPageLookup_none.1 hl)) hp.2, resident_append_ne _ hnew]
      | some pp =>
        simp only
        split
        · exact ih hm hp.2
        · refine (ih (nodup_append_page (p := ⟨p.offset - backingOffset, p.fake, p.data⟩) (nodup_eraseP hm)
            (eraseP_offset hm)) hp.2).trans ?_
          rw [resident_append_ne _ hnew, resident_eraseP_ne _ hnew]

end Pages

/-! ## Splicing -/

/-- `vm'` is `vm` with the backing object spliced out of the chain of `object`:
the other objects keep pages and links, `object` has the pages of both. -/
structure Spliced (pagers : Id → Nat → Option α) (vm vm' : Vm α) (object backing : Id) : Prop where
  shadows : (vm.obj object).shadow = some backing
  list : ∀ i ∈ vm'.objectList, i ∈ vm.objectList
  size : ∀ i ∈ vm'.objectList, (vm'.obj i).size = (vm.obj i).size
  link : ∀ i ∈ vm'.objectList, i ≠ object → ∀ s, (vm.obj i).shadow = some s → s ∈ vm'.objectList
  link_backing : ∀ s, (vm.obj backing).shadow = some s → s ∈ vm'.objectList
  page : ∀ i ∈ vm'.objectList, i ≠ object → (vm'.obj i).page pagers = (vm.obj i).page pagers
  shadow : ∀ i ∈ vm'.objectList, i ≠ object →
    (vm'.obj i).shadow = (vm.obj i).shadow ∧ (vm'.obj i).shadowOffset = (vm.obj i).shadowOffset
  page_object : ∀ offset < (vm.obj object).size, (vm'.obj object).page pagers offset =
    ((vm.obj object).page pagers offset).or
      ((vm.obj backing).page pagers (vmAdd offset (vm.obj object).shadowOffset))
  shadow_object : (vm'.obj object).shadow = (vm.obj backing).shadow ∧
    (vm'.obj object).shadowOffset = vmAdd (vm.obj object).shadowOffset (vm.obj backing).shadowOffset

theorem visible_some {pagers : Id → Nat → Option α} {vm : Vm α} {r : Option α} :
    Visible pagers vm (some i) offset r ↔
      match (vm.obj i).page pagers offset with
      | some d => r = some d
      | none => Visible pagers vm (vm.obj i).shadow (vmAdd offset (vm.obj i).shadowOffset) r := by
  constructor
  · intro h
    cases h with
    | here h => rw [h]
    | under h hs => rw [h]; exact hs
  · intro h
    cases hp : (vm.obj i).page pagers offset with
    | some d => rw [hp] at h; subst h; exact .here hp
    | none => rw [hp] at h; exact .under hp h

theorem visible_none {pagers : Id → Nat → Option α} {vm : Vm α} {r : Option α} :
    Visible pagers vm none offset r ↔ r = none := by
  constructor
  · intro h; cases h; rfl
  · rintro rfl; exact .null offset

theorem vmAdd_assoc (x y z : Nat) : vmAdd (vmAdd x y) z = vmAdd x (vmAdd y z) := by
  simp only [vmAdd]
  omega

section Splice
variable {pagers : Id → Nat → Option α} {ext rank : Id → Nat} {vm vm' : Vm α} {object backing : Id}

theorem Consistent.lands (hc : Consistent ext rank vm) {s : Id} (hi : i ∈ vm.objectList)
    (hs : (vm.obj i).shadow = some s) (ho : offset < (vm.obj i).size) :
    vmAdd offset (vm.obj i).shadowOffset < (vm.obj s).size ∨ (vm.obj s).shadow = none := by
  by_cases h : (vm.obj s).shadow = none
  · exact .inr h
  · have hw := hc.window i hi s hs (.inr h)
    have hsize := hc.size s (hc.shadow i hi s hs).1
    refine .inl ?_
    rw [vmAdd, Nat.mod_eq_of_lt (by omega)]
    omega

theorem visible_spliced (hc : Consistent ext rank vm) (hobj : object ∈ vm.objectList)
    (hs : Spliced pagers vm vm' object backing) (i : Id) (hi : i ∈ vm'.objectList)
    (ho : offset < (vm.obj i).size ∨ (vm.obj i).shadow = none) (r : Option α) :
    Visible pagers vm (some i) offset r ↔ Visible pagers vm' (some i) offset r := by
  -- Induction along the shadows; what is below `i` was compared before.
  induction hr : rank i using Nat.strongRecOn generalizing i offset with
  | ind n ih =>
    subst hr
    have hi0 := hs.list i hi
    by_cases hio : i = object
    · subst hio
      have hsh := hs.shadows
      have hlt : offset < (vm.obj i).size := ho.resolve_right (by simp [hsh])
      obtain ⟨hb, hrb⟩ := hc.shadow i hi0 backing hsh
      rw [visible_some, visible_some, hs.page_object offset hlt, hs.shadow_object.1, hs.shadow_object.2, hsh]
      cases (vm.obj i).page pagers offset with
      | some d => rfl
      | none =>
        simp only [Option.none_or]
        rw [visible_some]
        cases (vm.obj backing).page pagers (vmAdd offset (vm.obj i).shadowOffset) with
        | some d => rfl
        | none =>
          simp only
          rw [vmAdd_assoc]
          cases hbs : (vm.obj backing).shadow with
          | none => rw [visible_none, visible_none]
          | some s =>
            obtain ⟨hs0, hrs⟩ := hc.shadow backing hb s hbs
            have hin := (hc.lands hi0 hsh hlt).resolve_right (by simp [hbs])
            have hland := hc.lands hb hbs hin
            rw [vmAdd_assoc] at hland
            exact ih (rank s) (by omega) s (hs.link_backing s hbs) hland rfl
    · rw [visible_some, visible_some, hs.page i hi hio, (hs.shadow i hi hio).1, (hs.shadow i hi hio).2]
      cases (vm.obj i).page pagers offset with
      | some d => rfl
      | none =>
        simp only
        cases his : (vm.obj i).shadow with
        | none => rw [visible_none, visible_none]
        | some s =>
          have hlt : offset < (vm.obj i).size := ho.resolve_right (by simp [his])
          exact ih (rank s) (hc.shadow i hi0 s his).2 s (hs.link i hi hio s his) (hc.lands hi0 his hlt) rfl

end Splice

/-! ## Counting references -/

theorem countP_change {l : List Id} (hn : l.Nodup) {o : Id} (ho : o ∈ l) {p q : Id → Bool} (h : ∀ j ∈ l, j ≠ o → p j = q j) :
    l.countP q + (if p o then 1 else 0) = l.countP p + (if q o then 1 else 0) := by
  have hperm := List.perm_cons_erase ho
  have hrest : (l.erase o).countP q = (l.erase o).countP p := by
    refine List.countP_congr fun j hj => ?_
    have hmem := (List.Nodup.mem_erase_iff hn).1 hj
    rw [h j hmem.2 hmem.1]
  rw [hperm.countP_eq, hperm.countP_eq, List.countP_cons, List.countP_cons, hrest]
  omega

section Count
variable {ext rank : Id → Nat} {vm : Vm α} {object backing : Id}

/-- A reference count of 1 is that of the one parent. -/
theorem Consistent.only_parent (hc : Consistent ext rank vm) (hobj : object ∈ vm.objectList)
    (hs : (vm.obj object).shadow = some backing) (hone : (vm.obj backing).refCount = 1) (hi : i ∈ vm.objectList)
    (his : (vm.obj i).shadow = some backing) : i = object := by
  have hrefs := hc.refs backing (hc.shadow object hobj backing hs).1
  rw [hone, shadowRefs, List.countP_eq_length_filter] at hrefs
  have hio : i ∈ vm.objectList.filter fun j => (vm.obj j).shadow = some backing := by simp [hi, his]
  have hoo : object ∈ vm.objectList.filter fun j => (vm.obj j).shadow = some backing := by simp [hobj, hs]
  have hlen : (vm.objectList.filter fun j => (vm.obj j).shadow = some backing).length = 1 := by
    have := List.length_pos_of_mem hoo
    omega
  obtain ⟨a, ha⟩ := List.length_eq_one_iff.1 hlen
  rw [ha, List.mem_singleton] at hio hoo
  rw [hio, hoo]

end Count

/-! ## Merging -/

section Merge
variable {pagers : Id → Nat → Option α} {ext rank : Id → Nat} {vm : Vm α} {object backing : Id}

/-- The heap after merging `backing` into `object`. -/
def merged (vm : Vm α) (object backing : Id) : Vm α :=
  { vm.set object (merge (vm.obj object) (vm.obj backing)) with objectList := vm.objectList.erase backing }

theorem merged_object : (merged vm object backing).obj object = merge (vm.obj object) (vm.obj backing) := by
  simp [merged, Vm.set]

theorem merged_other (h : i ≠ object) : (merged vm object backing).obj i = vm.obj i := by
  simp [merged, Vm.set, h]

theorem mem_merged (hn : vm.objectList.Nodup) :
    i ∈ (merged vm object backing).objectList ↔ i ≠ backing ∧ i ∈ vm.objectList :=
  List.Nodup.mem_erase_iff hn

/-- What merging does not touch. -/
theorem merged_same (i : Id) : ((merged vm object backing).obj i).size = (vm.obj i).size ∧
    ((merged vm object backing).obj i).internal = (vm.obj i).internal ∧
    ((merged vm object backing).obj i).copy = (vm.obj i).copy ∧
    ((merged vm object backing).obj i).refCount = (vm.obj i).refCount := by
  by_cases h : i = object
  · rw [h, merged_object]
    exact ⟨rfl, rfl, rfl, rfl⟩
  · rw [merged_other h]
    exact ⟨rfl, rfl, rfl, rfl⟩

theorem spliced_merged (hc : Consistent ext rank vm) (hobj : object ∈ vm.objectList)
    (hs : (vm.obj object).shadow = some backing) (hpager : (vm.obj object).pager = none)
    (hint : (vm.obj backing).internal = true) (hone : (vm.obj backing).refCount = 1) :
    Spliced pagers vm (merged vm object backing) object backing := by
  have hn := hc.nodup
  obtain ⟨hb, hrank⟩ := hc.shadow object hobj backing hs
  have hw := hc.window object hobj backing hs (.inl hint)
  have hsize := hc.size backing hb
  refine ⟨hs, fun i hi => ((mem_merged hn).1 hi).2, fun i _ => (merged_same i).1, ?_, ?_, ?_, ?_, ?_, ?_⟩
  · intro i hi hio s his
    obtain ⟨-, hi⟩ := (mem_merged hn).1 hi
    refine (mem_merged hn).2 ⟨fun hsb => hio ?_, (hc.shadow i hi s his).1⟩
    exact hc.only_parent hobj hs hone hi (hsb ▸ his)
  · intro s hbs
    obtain ⟨hs0, hrs⟩ := hc.shadow backing hb s hbs
    exact (mem_merged hn).2 ⟨fun h => by rw [h] at hrs; omega, hs0⟩
  · intro i _ hio
    rw [merged_other hio]
  · intro i _ hio
    rw [merged_other hio]
    exact ⟨rfl, rfl⟩
  · intro offset ho
    have hadd : vmAdd offset (vm.obj object).shadowOffset = offset + (vm.obj object).shadowOffset := by
      rw [vmAdd, Nat.mod_eq_of_lt (by omega)]
    rw [merged_object, Object.page, Object.page, Object.page]
    have hres := resident_movePages (vm.obj object).shadowOffset (vm.obj backing).memq
      (hc.pages object hobj) (hc.pages backing hb) ho
    have hpaged : (merge (vm.obj object) (vm.obj backing)).paged pagers offset =
        (vm.obj backing).paged pagers (vmAdd offset (vm.obj object).shadowOffset) := by
      cases hbp : (vm.obj backing).pager with
      | none => simp [Object.paged, merge, hbp, hpager]
      | some p => simp [Object.paged, merge, hbp, vmAdd_assoc]
    have hno : (vm.obj object).paged pagers offset = none := by simp [Object.paged, hpager]
    rw [hpaged, hno, hadd, Option.or_none, ← Option.or_assoc, ← hres]
    rfl
  · rw [merged_object]
    exact ⟨rfl, rfl⟩

theorem shadowRefs_merged (hc : Consistent ext rank vm) (hobj : object ∈ vm.objectList)
    (hs : (vm.obj object).shadow = some backing) (hi : i ≠ backing) :
    shadowRefs (merged vm object backing) i = shadowRefs vm i := by
  obtain ⟨hb, hrank⟩ := hc.shadow object hobj backing hs
  have hne : object ≠ backing := fun h => by rw [h] at hrank; omega
  have hchange := countP_change (hc.nodup.erase backing) ((List.Nodup.mem_erase_iff hc.nodup).2 ⟨hne, hobj⟩)
    (p := fun j => (vm.obj j).shadow = some i) (q := fun j => ((merged vm object backing).obj j).shadow = some i)
    fun j _ hj => by simp only [merged_other hj]
  have hold := (List.perm_cons_erase hb).countP_eq fun j => decide ((vm.obj j).shadow = some i)
  have hbi : ¬some backing = some i := fun h => hi (Option.some.inj h).symm
  simp only [merged_object, merge, hs, List.countP_cons, decide_eq_true_eq, if_neg hbi] at hchange hold
  rw [shadowRefs, shadowRefs, hold]
  exact hchange

theorem consistent_merged (hc : Consistent ext rank vm) (hobj : object ∈ vm.objectList)
    (hs : (vm.obj object).shadow = some backing) (hint : (vm.obj backing).internal = true)
    (hcopy : hasCopy vm (vm.obj backing).shadow = false) (hone : (vm.obj backing).refCount = 1) :
    Consistent ext rank (merged vm object backing) := by
  have hn := hc.nodup
  obtain ⟨hb, hrank⟩ := hc.shadow object hobj backing hs
  have hwo := hc.window object hobj backing hs (.inl hint)
  have hshadow : ∀ i ∈ (merged vm object backing).objectList, ∀ s, ((merged vm object backing).obj i).shadow = some s →
      s ∈ (merged vm object backing).objectList ∧ rank s < rank i := by
    intro i hi s his
    obtain ⟨hib, hi0⟩ := (mem_merged hn).1 hi
    by_cases hio : i = object
    · subst hio
      rw [merged_object] at his
      obtain ⟨hs0, hrs⟩ := hc.shadow backing hb s his
      exact ⟨(mem_merged hn).2 ⟨fun h => by rw [h] at hrs; omega, hs0⟩, by omega⟩
    · rw [merged_other hio] at his
      obtain ⟨hs0, hrs⟩ := hc.shadow i hi0 s his
      refine ⟨(mem_merged hn).2 ⟨fun h => hio ?_, hs0⟩, hrs⟩
      exact hc.only_parent hobj hs hone hi0 (h ▸ his)
  refine ⟨hn.erase backing, hshadow, ?_, ?_, ?_, ?_, ?_⟩
  · intro i hi s his hrel
    obtain ⟨hib, hi0⟩ := (mem_merged hn).1 hi
    have hrs := (hshadow i hi s his).2
    rw [(merged_same i).1, (merged_same s).1]
    by_cases hio : i = object
    · subst hio
      have hso : s ≠ i := fun h => by rw [h] at hrs; omega
      rw [merged_other hso] at hrel
      rw [merged_object] at his ⊢
      have hwb := hc.window backing hb s his hrel
      simp only [merge, vmAdd]
      omega
    · rw [merged_other hio] at his ⊢
      refine hc.window i hi0 s his ?_
      by_cases hso : s = object
      · exact .inr (by rw [hso, hs]; simp)
      · rwa [merged_other hso] at hrel
  · intro i hi
    rw [(merged_same i).1]
    exact hc.size i ((mem_merged hn).1 hi).2
  · intro i hi
    obtain ⟨hib, hi0⟩ := (mem_merged hn).1 hi
    by_cases hio : i = object
    · subst hio
      rw [merged_object]
      exact movePages_nodup _ (hc.pages i hi0)
    · rw [merged_other hio]
      exact hc.pages i hi0
  · intro i hi c hic
    obtain ⟨hib, hi0⟩ := (mem_merged hn).1 hi
    rw [(merged_same i).2.2.1] at hic
    obtain ⟨hc0, hcs⟩ := hc.copy i hi0 c hic
    have hcb : c ≠ backing := fun h => by
      rw [h] at hcs
      rw [hcs] at hcopy
      simp [hasCopy, hic] at hcopy
    have hco : c ≠ object := fun h => by
      rw [h, hs] at hcs
      exact hib (Option.some.inj hcs).symm
    exact ⟨(mem_merged hn).2 ⟨hcb, hc0⟩, by rw [merged_other hco]; exact hcs⟩
  · intro i hi
    obtain ⟨hib, hi0⟩ := (mem_merged hn).1 hi
    rw [(merged_same i).2.2.2, shadowRefs_merged hc hobj hs hib]
    exact hc.refs i hi0

end Merge

/-! ## Bypassing -/

section Bypass
variable {pagers : Id → Nat → Option α} {ext rank : Id → Nat} {vm : Vm α} {object backing : Id}

/-- Every object after a bypass. -/
theorem bypass_obj (hob : object ≠ backing) (hbs : ∀ s, (vm.obj backing).shadow = some s → s ≠ object ∧ s ≠ backing)
    (i : Id) : (bypass vm object backing).obj i =
      { vm.obj i with
        shadow := if i = object then (vm.obj backing).shadow else (vm.obj i).shadow
        shadowOffset := if i = object then vmAdd (vm.obj object).shadowOffset (vm.obj backing).shadowOffset
          else (vm.obj i).shadowOffset
        copy := if i = backing ∧ (vm.obj i).copy = some object then none else (vm.obj i).copy
        refCount := if i = backing then (vm.obj i).refCount - 1
          else if (vm.obj backing).shadow = some i then (vm.obj i).refCount + 1 else (vm.obj i).refCount } := by
  cases hs : (vm.obj backing).shadow with
  | none =>
    simp only [bypass, hs, vmObjectReference, Vm.set, Function.update_apply]
    by_cases hib : i = backing
    · subst hib
      simp [hob.symm, hs]
    · by_cases hio : i = object
      · subst hio
        simp [hib]
      · simp [hib, hio]
  | some s =>
    obtain ⟨hso, hsb⟩ := hbs s hs
    simp only [bypass, hs, vmObjectReference, Vm.set, Function.update_apply]
    by_cases hib : i = backing
    · subst hib
      simp [hob.symm, hs, hsb.symm]
    · by_cases hio : i = object
      · subst hio
        simp [hib, hso, hso.symm]
      · by_cases his : i = s
        · subst his
          simp [hib, hio]
        · simp [hib, hio, his, Ne.symm his]

theorem bypass_list : (bypass vm object backing).objectList = vm.objectList := by
  cases hs : (vm.obj backing).shadow <;> simp [bypass, hs, vmObjectReference, Vm.set]

theorem Consistent.chain_ne (hc : Consistent ext rank vm) (hobj : object ∈ vm.objectList)
    (hs : (vm.obj object).shadow = some backing) :
    object ≠ backing ∧ ∀ s, (vm.obj backing).shadow = some s → s ≠ object ∧ s ≠ backing := by
  obtain ⟨hb, hrank⟩ := hc.shadow object hobj backing hs
  refine ⟨fun h => by rw [h] at hrank; omega, fun s hbs => ?_⟩
  have hrs := (hc.shadow backing hb s hbs).2
  exact ⟨fun h => by rw [h] at hrs; omega, fun h => by rw [h] at hrs; omega⟩

/-- No page of the backing object is seen through the parent. -/
theorem resident_backing_none {o b : Object α} (hany : b.memq.any (stillNeeded o) = false) (ho : offset < o.size)
    (hres : resident o.memq offset = none) : resident b.memq (offset + o.shadowOffset) = none := by
  rw [resident]
  cases hl : vmPageLookup b.memq (offset + o.shadowOffset) with
  | none => rfl
  | some p =>
    -- Such a page is not needed, so the parent has a page that is no placeholder.
    have hp : p.offset = offset + o.shadowOffset := by simpa using List.find?_some hl
    have hneeded := List.any_eq_false.1 hany p (List.mem_of_find?_eq_some hl)
    have hnew : p.offset - o.shadowOffset = offset := by omega
    simp only [stillNeeded, hnew] at hneeded
    rw [resident] at hres
    cases hlo : vmPageLookup o.memq offset with
    | none => simp [hlo, ho, hp] at hneeded
    | some pp =>
      rw [hlo] at hneeded hres
      simp only [Option.bind_some] at hres
      cases hf : pp.fake with
      | true => simp [hf, ho, hp] at hneeded
      | false => simp [hf] at hres

theorem spliced_bypass (hc : Consistent ext rank vm) (hobj : object ∈ vm.objectList)
    (hs : (vm.obj object).shadow = some backing) (hpager : (vm.obj object).pager = none)
    (hint : (vm.obj backing).internal = true) (hbp : (vm.obj backing).pager = none)
    (hany : (vm.obj backing).memq.any (stillNeeded (vm.obj object)) = false) :
    Spliced pagers vm (bypass vm object backing) object backing := by
  obtain ⟨hb, hrank⟩ := hc.shadow object hobj backing hs
  obtain ⟨hob, hbs⟩ := hc.chain_ne hobj hs
  have hw := hc.window object hobj backing hs (.inl hint)
  have hsize := hc.size backing hb
  have hpage : ∀ i, ((bypass vm object backing).obj i).page pagers = (vm.obj i).page pagers := fun i => by
    rw [bypass_obj hob hbs]
    rfl
  refine ⟨hs, fun i hi => bypass_list ▸ hi, fun i _ => ?_, ?_, ?_, fun i _ _ => hpage i, ?_, ?_, ?_⟩
  · rw [bypass_obj hob hbs]
  · intro i hi _ s his
    rw [bypass_list] at hi ⊢
    exact (hc.shadow i hi s his).1
  · intro s hbs
    rw [bypass_list]
    exact (hc.shadow backing hb s hbs).1
  · intro i _ hio
    rw [bypass_obj hob hbs]
    simp only [if_neg hio, and_self]
  · intro offset ho
    have hadd : vmAdd offset (vm.obj object).shadowOffset = offset + (vm.obj object).shadowOffset := by
      rw [vmAdd, Nat.mod_eq_of_lt (by omega)]
    have hno : (vm.obj object).paged pagers offset = none := by simp [Object.paged, hpager]
    have hnob : ∀ x, (vm.obj backing).paged pagers x = none := fun x => by simp [Object.paged, hbp]
    rw [hpage, hadd, Object.page, Object.page, hno, hnob, Option.or_none, Option.or_none]
    cases hres : resident (vm.obj object).memq offset with
    | some d => rfl
    | none => rw [resident_backing_none hany ho hres]; rfl
  · rw [bypass_obj hob hbs]
    simp

theorem consistent_bypass (hc : Consistent ext rank vm) (hobj : object ∈ vm.objectList)
    (hs : (vm.obj object).shadow = some backing) (hint : (vm.obj backing).internal = true) :
    Consistent ext rank (bypass vm object backing) := by
  obtain ⟨hb, hrank⟩ := hc.shadow object hobj backing hs
  obtain ⟨hob, hbs⟩ := hc.chain_ne hobj hs
  have hwo := hc.window object hobj backing hs (.inl hint)
  have hsizeb := hc.size backing hb
  have hobjs := bypass_obj hob hbs
  have hshadow : ∀ i s, ((bypass vm object backing).obj i).shadow = some s →
      i = object ∧ (vm.obj backing).shadow = some s ∨ i ≠ object ∧ (vm.obj i).shadow = some s := fun i s his => by
    rw [hobjs] at his
    by_cases hio : i = object
    · exact .inl ⟨hio, by simpa [hio] using his⟩
    · exact .inr ⟨hio, by simpa [hio] using his⟩
  refine ⟨?_, ?_, ?_, ?_, ?_, ?_, ?_⟩ <;> rw [bypass_list]
  · exact hc.nodup
  · intro i hi s his
    rcases hshadow i s his with ⟨rfl, hbs'⟩ | ⟨-, his'⟩
    · obtain ⟨hs0, hrs⟩ := hc.shadow backing hb s hbs'
      exact ⟨hs0, by omega⟩
    · exact hc.shadow i hi s his'
  · intro i hi s his hrel
    have hrel' : (vm.obj s).internal = true ∨ (vm.obj s).shadow ≠ none := by
      rw [hobjs] at hrel
      by_cases hso : s = object
      · exact .inr (by rw [hso, hs]; simp)
      · simpa [hso] using hrel
    rcases hshadow i s his with ⟨rfl, hbs'⟩ | ⟨hio, his'⟩
    · have hwb := hc.window backing hb s hbs' hrel'
      rw [hobjs, hobjs]
      simp only [if_true, vmAdd]
      omega
    · rw [hobjs, hobjs]
      simp only [if_neg hio]
      exact hc.window i hi s his' hrel'
  · intro i hi
    rw [hobjs]
    exact hc.size i hi
  · intro i hi
    rw [hobjs]
    exact hc.pages i hi
  · intro i hi c hic
    rw [hobjs] at hic
    simp only at hic
    split at hic
    · cases hic
    next hcopy =>
    obtain ⟨hc0, hcs⟩ := hc.copy i hi c hic
    have hco : c ≠ object := fun h => by
      subst h
      rw [hs] at hcs
      exact hcopy ⟨(Option.some.inj hcs).symm, hic⟩
    refine ⟨hc0, ?_⟩
    rw [hobjs]
    simp only [if_neg hco]
    exact hcs
  · intro i hi
    have hchange := countP_change hc.nodup hobj (p := fun j => (vm.obj j).shadow = some i)
      (q := fun j => ((bypass vm object backing).obj j).shadow = some i) fun j _ hj => by
        simp only [hobjs, if_neg hj]
    have hrefs := hc.refs i hi
    rw [shadowRefs] at hrefs ⊢
    rw [bypass_list]
    simp only [hs, Option.some.injEq, decide_eq_true_eq, hobjs object, if_true] at hchange
    rw [hobjs i]
    simp only
    by_cases hib : i = backing
    · subst hib
      have hno : ¬(vm.obj i).shadow = some i := fun h => (hbs i h).2 rfl
      rw [if_pos rfl, if_neg hno] at hchange
      rw [if_pos rfl]
      omega
    · rw [if_neg (Ne.symm hib)] at hchange
      rw [if_neg hib]
      split at hchange
      · next h => rw [if_pos h]; omega
      · next h => rw [if_neg h]; omega

end Bypass

/-! ## The loop -/

section Loop
variable {pagers : Id → Nat → Option α} {ext rank : Id → Nat} {vm vm' : Vm α} {object : Id}

/-- What is left sees what it saw. -/
structure Keeps (pagers : Id → Nat → Option α) (vm vm' : Vm α) : Prop where
  list : ∀ i ∈ vm'.objectList, i ∈ vm.objectList
  size : ∀ i ∈ vm'.objectList, (vm'.obj i).size = (vm.obj i).size
  visible : ∀ i ∈ vm'.objectList, ∀ offset < (vm.obj i).size, ∀ r,
    Visible pagers vm (some i) offset r ↔ Visible pagers vm' (some i) offset r

theorem Keeps.refl (pagers : Id → Nat → Option α) (vm : Vm α) : Keeps pagers vm vm :=
  ⟨fun _ h => h, fun _ _ => rfl, fun _ _ _ _ _ => Iff.rfl⟩

theorem Keeps.trans {vm'' : Vm α} (h : Keeps pagers vm vm') (h' : Keeps pagers vm' vm'') : Keeps pagers vm vm'' := by
  refine ⟨fun i hi => h.list i (h'.list i hi), fun i hi => (h'.size i hi).trans (h.size i (h'.list i hi)), ?_⟩
  intro i hi offset ho r
  rw [h.visible i (h'.list i hi) offset ho r]
  exact h'.visible i hi offset (by rwa [h.size i (h'.list i hi)]) r

/-- The rank of the parent's shadow, which the loop decreases. -/
def below (rank : Id → Nat) (vm : Vm α) (object : Id) : Nat := (vm.obj object).shadow.elim 0 fun s => rank s + 1

/-- A turn of the loop returns, or splices the backing object out. -/
theorem collapseTurn_spec (pagers : Id → Nat → Option α) (hc : Consistent ext rank vm) (hobj : object ∈ vm.objectList) :
    collapseTurn vm object = .ret ∨ ∃ vm', collapseTurn vm object = .again vm' ∧ Consistent ext rank vm' ∧
      object ∈ vm'.objectList ∧ Keeps pagers vm vm' ∧ below rank vm' object < below rank vm object := by
  unfold collapseTurn
  simp only
  split
  · exact .inl rfl
  next hpage =>
  cases hs : (vm.obj object).shadow with
  | none => exact .inl rfl
  | some backing =>
    simp only
    split
    · exact .inl rfl
    next hint =>
    split
    · exact .inl rfl
    next hcopy =>
    rw [not_or] at hpage hint
    have hpager := not_not.1 hpage.2
    have hint : (vm.obj backing).internal = true := by simpa using hint.1
    have hcopy : hasCopy vm (vm.obj backing).shadow = false := by simpa using hcopy
    obtain ⟨hb, hrank⟩ := hc.shadow object hobj backing hs
    obtain ⟨hob, hbs⟩ := hc.chain_ne hobj hs
    have hfinish : ∀ vm', Consistent ext rank vm' → object ∈ vm'.objectList → Spliced pagers vm vm' object backing →
        Consistent ext rank vm' ∧ object ∈ vm'.objectList ∧ Keeps pagers vm vm' ∧
          below rank vm' object < below rank vm object := by
      intro vm' hc' hobj' hsp
      refine ⟨hc', hobj', ⟨hsp.list, hsp.size, fun i hi offset ho r => visible_spliced hc hobj hsp i hi (.inl ho) r⟩, ?_⟩
      rw [below, below, hs, hsp.shadow_object.1]
      cases hbs' : (vm.obj backing).shadow with
      | none => simp
      | some s =>
        have := (hc.shadow backing hb s hbs').2
        simp only [Option.elim_some]
        omega
    split
    · next hone =>
      have hnocopy : ¬hasCopy (merged vm object backing) (vm.obj backing).shadow = true := by
        cases hbs' : (vm.obj backing).shadow with
        | none => simp [hasCopy]
        | some s =>
          rw [hbs'] at hcopy
          simpa [hasCopy, (merged_same s).2.2.1] using hcopy
      have hobj' : object ∈ (merged vm object backing).objectList := (mem_merged hc.nodup).2 ⟨hob, hobj⟩
      refine .inr ⟨merged vm object backing, if_neg hnocopy, ?_⟩
      exact hfinish _ (consistent_merged hc hobj hs hint hcopy hone) hobj' (spliced_merged hc hobj hs hpager hint hone)
    split
    · exact .inl rfl
    next hbp =>
    split
    · exact .inl rfl
    next hany =>
    have hany : (vm.obj backing).memq.any (stillNeeded (vm.obj object)) = false := by simpa only [Bool.not_eq_true] using hany
    refine .inr ⟨_, rfl, hfinish _ (consistent_bypass hc hobj hs hint) (by rw [bypass_list]; exact hobj) ?_⟩
    exact spliced_bypass hc hobj hs hpager hint (not_not.1 hbp) hany

theorem collapseLoop_spec (pagers : Id → Nat → Option α) (hc : Consistent ext rank vm) (hobj : object ∈ vm.objectList) :
    ∃ n vm', collapseLoop object n vm = .done vm' ∧ Consistent ext rank vm' ∧ Keeps pagers vm vm' := by
  induction hm : below rank vm object using Nat.strongRecOn generalizing vm with
  | ind m ih =>
    rcases collapseTurn_spec pagers hc hobj with hret | ⟨vm1, hturn, hc1, hobj1, hkeep, hlt⟩
    · exact ⟨1, vm, by simp [collapseLoop, hret], hc, Keeps.refl pagers vm⟩
    · obtain ⟨n, vm', hrun, hc', hkeep'⟩ := ih _ (hm ▸ hlt) hc1 hobj1 rfl
      exact ⟨n + 1, vm', by simp only [collapseLoop, hturn, hrun], hc', hkeep.trans hkeep'⟩

end Loop

/-- Two objects, the first a shadow of the second, which has one page. -/
def pair : Vm Nat where
  objectList := [0, 1]
  obj i :=
    if i = 0 then ⟨[], 1, 8192, true, 0, none, none, 0, some 1, 0⟩
    else ⟨[⟨4096, false, 7⟩], 1, 8192, true, 0, none, none, 0, none, 0⟩

end BsdKernel.VmObject
