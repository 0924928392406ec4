import BsdKernel.Vm.MapShares
/-!
# What is mapped

`Keeps` is what the operations do that clip entries or change them in their places: they unmap nothing, and
leave the free-space hint where it is.
-/

namespace BsdKernel.VmMap

def Mapped (es : List Entry) (a : Nat) : Prop := ∃ e ∈ es, e.start ≤ a ∧ a < e.end_

/-- All that was mapped is, and no old entry ends later than it did. -/
structure Keeps (m m' : Map) : Prop where
  minOffset : m'.minOffset = m.minOffset
  firstFree : m'.firstFree = m.firstFree
  ids : ids m.entries ⊆ ids m'.entries
  mapped : ∀ a, Mapped m.entries a → Mapped m'.entries a
  ends : ∀ x ∈ m'.entries, x.id ∈ VmMap.ids m.entries → ∃ e ∈ m.entries, e.id = x.id ∧ x.end_ ≤ e.end_

section Keeps
variable {m m' m'' : Map} {b r es es' : List Entry} {e x y : Entry}

theorem Keeps.refl (m : Map) : Keeps m m :=
  ⟨rfl, rfl, fun _ h => h, fun _ h => h, fun x hx _ => ⟨x, hx, rfl, Nat.le_refl _⟩⟩

theorem Keeps.trans (h : Keeps m m') (h' : Keeps m' m'') : Keeps m m'' := by
  refine ⟨h'.minOffset.trans h.minOffset, h'.firstFree.trans h.firstFree, fun i hi => h'.ids (h.ids hi),
    fun a ha => h'.mapped a (h.mapped a ha), fun x hx hid => ?_⟩
  obtain ⟨y, hy, hyx, hle⟩ := h'.ends x hx (h.ids hid)
  obtain ⟨e, he, hey, hle'⟩ := h.ends y hy (hyx ▸ hid)
  exact ⟨e, he, hey.trans hyx, Nat.le_trans hle hle'⟩

theorem Mapped.mono (h : ∀ e ∈ es, ∃ x ∈ es', x.start ≤ e.start ∧ e.end_ ≤ x.end_) {a : Nat} (ha : Mapped es a) :
    Mapped es' a := by
  obtain ⟨e, he, hlo, hhi⟩ := ha
  obtain ⟨x, hx, hs, ht⟩ := h e he
  exact ⟨x, hx, by omega, by omega⟩

theorem mapped_touch (ht : List.Forall₂ Entry.SamePlace es es') {a : Nat} (ha : Mapped es a) : Mapped es' a := by
  refine ha.mono fun e he => ?_
  obtain ⟨x, hx, hs⟩ := mem_of_touch ht he
  exact ⟨x, hx, Nat.le_of_eq hs.start, Nat.le_of_eq hs.end_.symm⟩

theorem keeps_touch (m : Map) (ht : List.Forall₂ Entry.SamePlace m.entries es') :
    Keeps m { m with entries := es' } := by
  refine ⟨rfl, rfl, fun i hi => (ids_touch ht).symm ▸ hi, fun a ha => mapped_touch ht ha, fun x hx _ => ?_⟩
  obtain ⟨e, he, hs⟩ := mem_of_touch ht.flip hx
  exact ⟨e, he, hs.id.symm, Nat.le_of_eq hs.end_⟩

theorem keeps_split (h : Linked m) (hm : m.entries = b ++ e :: r) (hs : Splits m.nextId e x y) :
    Keeps m { m.linked with entries := b ++ x :: y :: r } := by
  have hnew : m.nextId ∉ ids m.entries := fun hin => Nat.lt_irrefl _ (h.fresh _ hin)
  have hleft := hs.left
  have hright := hs.right
  have hend := hs.end_
  refine ⟨rfl, rfl, fun i hi => (hs.perm b r).mem_iff.2 (.tail _ (hm ▸ hi)), fun a ha => ?_, fun z hz hid => ?_⟩
  · obtain ⟨z, hz, hlo, hhi⟩ := ha
    rw [hm] at hz
    simp only [List.mem_append, List.mem_cons] at hz
    rcases hz with hz | rfl | hz
    · exact ⟨z, by simp [hz], hlo, hhi⟩
    · by_cases hmid : a < x.end_
      · exact ⟨x, by simp, by rw [hs.start]; exact hlo, hmid⟩
      · exact ⟨y, by simp, by rw [hs.middle]; omega, by omega⟩
    · exact ⟨z, by simp [hz], hlo, hhi⟩
  · simp only [List.mem_append, List.mem_cons] at hz
    rcases hz with hz | rfl | rfl | hz
    · exact ⟨z, by simp [hm, hz], rfl, Nat.le_refl _⟩
    · rcases hs.names with ⟨hx, -⟩ | ⟨hx, -⟩
      · exact absurd (hx ▸ hid) hnew
      · exact ⟨e, by simp [hm], hx.symm, Nat.le_of_lt hright⟩
    · rcases hs.names with ⟨-, hy⟩ | ⟨-, hy⟩
      · exact ⟨e, by simp [hm], hy.symm, Nat.le_of_eq hend⟩
      · exact absurd (hy ▸ hid) hnew
    · exact ⟨z, by simp [hm, hz], rfl, Nat.le_refl _⟩

theorem keeps_same (he : m'.entries = m.entries) (hmin : m'.minOffset = m.minOffset) (hf : m'.firstFree = m.firstFree) : Keeps m m' :=
  ⟨hmin, hf, fun _ h => he ▸ h, fun _ h => he ▸ h, fun x hx _ => ⟨x, he ▸ hx, rfl, Nat.le_refl _⟩⟩

theorem keeps_lookup (h : Linked m) (a : Nat) : Keeps m (vmMapLookupEntry m a).2.2 := by
  rw [(lookup_spec h a).same]
  exact keeps_same rfl rfl rfl

end Keeps

end BsdKernel.VmMap
