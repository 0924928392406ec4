import BsdKernel.Vm.MapLinked
/-!
# Sharing maps and the references to them

An entry that refers to a sharing map is a window on it. `SharesOk` says of the windows
of all entries that each lies in a sharing map that is still there, and of every sharing
map that it counts the windows on it. `Good` joins this with the invariant of the map an
operation works on; it is shown for the changes the operations are made of.
-/

namespace BsdKernel.VmMap

open VmObject (vmAdd)

/-! ## Windows -/

structure Window where
  share : Nat
  offset : Nat
  len : Nat
deriving DecidableEq

def Entry.window (e : Entry) : Option Window :=
  match e.object with
  | .shareMap s => some ⟨s, e.offset, e.end_ - e.start⟩
  | _ => none

def windows (es : List Entry) : List Window := es.filterMap Entry.window

@[simp] theorem windows_append (a b : List Entry) : windows (a ++ b) = windows a ++ windows b :=
  List.filterMap_append

/-- A sharing map whose entries refer to objects and leave no hole. -/
structure ShareOk (m : Map) : Prop where
  linked : Linked m
  covers : ∀ a, m.minOffset ≤ a → a < m.maxOffset → ∃ e ∈ m.entries, e.start ≤ a ∧ a < e.end_
  plain : ∀ e ∈ m.entries, e.mapRef = none

structure SharesOk (ws : List Window) (sh : Shares) : Prop where
  share : ∀ s m, sh.get s = some m →
    s < sh.next ∧ ShareOk m ∧ 0 < m.refCount ∧ m.refCount = ws.countP (·.share == s)
  window : ∀ v ∈ ws, ∃ m, sh.get v.share = some m ∧ m.minOffset ≤ v.offset ∧ v.offset + v.len ≤ m.maxOffset

section SharesOk
variable {ws ws' : List Window} {v : Window} {sh : Shares} {s : Nat} {m m' : Map}

theorem get_set (sh : Shares) (s t : Nat) (m : Option Map) : (sh.set s m).get t = if t = s then m else sh.get t := by
  simp [Shares.set, Function.update_apply]

theorem SharesOk.perm (h : SharesOk ws sh) (hp : ws.Perm ws') : SharesOk ws' sh where
  share s m hm := hp.countP_eq (·.share == s) ▸ h.share s m hm
  window v hv := h.window v (hp.mem_iff.2 hv)

/-- A sharing map changes without its bounds and its count. -/
theorem SharesOk.update (h : SharesOk ws sh) (hm : sh.get s = some m) (hok : ShareOk m')
    (hmin : m'.minOffset = m.minOffset) (hmax : m'.maxOffset = m.maxOffset) (hrc : m'.refCount = m.refCount) :
    SharesOk ws (sh.set s (some m')) := by
  refine ⟨fun t n hn => ?_, fun v hv => ?_⟩
  · rw [get_set] at hn
    split at hn
    · rename_i hts
      cases hn
      subst hts
      obtain ⟨h1, -, h3⟩ := h.share t m hm
      exact ⟨h1, hok, hrc ▸ h3⟩
    · exact h.share t n hn
  · obtain ⟨n, hn, hlo, hhi⟩ := h.window v hv
    rw [get_set]
    split
    · rename_i hvs
      rw [hvs, hm] at hn
      cases hn
      exact ⟨m', rfl, hmin ▸ hlo, hmax ▸ hhi⟩
    · exact ⟨n, hn, hlo, hhi⟩

theorem SharesOk.narrow (h : SharesOk (v :: ws) sh) (v' : Window) (hs : v'.share = v.share) (hlo : v.offset ≤ v'.offset)
    (hhi : v'.offset + v'.len ≤ v.offset + v.len) : SharesOk (v' :: ws) sh := by
  refine ⟨fun t n hn => ?_, fun u hu => ?_⟩
  · simpa [hs, List.countP_cons] using h.share t n hn
  · rcases List.mem_cons.1 hu with rfl | hu
    · obtain ⟨n, hn, h1, h2⟩ := h.window v (by simp)
      exact ⟨n, hs ▸ hn, by omega, by omega⟩
    · exact h.window u (List.mem_cons_of_mem _ hu)

theorem get_reference (hm : sh.get s = some m) (t : Nat) :
    (sh.reference s).get t = if t = s then some { m with refCount := m.refCount + 1 } else sh.get t := by
  rw [Shares.reference, hm]
  exact get_set ..

theorem next_reference (sh : Shares) (s : Nat) : (sh.reference s).next = sh.next := by
  unfold Shares.reference
  split <;> rfl

theorem ShareOk.withRefCount (h : ShareOk m) (n : Nat) : ShareOk { m with refCount := n } :=
  ⟨{ h.linked with }, h.covers, h.plain⟩

/-- One more window with the same place as one that is there. -/
theorem SharesOk.reference (h : SharesOk ws sh) (hv : v ∈ ws) : SharesOk (v :: ws) (sh.reference v.share) := by
  obtain ⟨m, hm, hlo, hhi⟩ := h.window v hv
  refine ⟨fun t n hn => ?_, fun u hu => ?_⟩
  · rw [get_reference hm] at hn
    rw [next_reference, List.countP_cons]
    split at hn
    · rename_i hts
      cases hn
      subst hts
      obtain ⟨h1, h2, h3, h4⟩ := h.share _ m hm
      exact ⟨h1, h2.withRefCount _, Nat.succ_pos _, by simp [h4]⟩
    · rename_i hts
      have hne : ¬v.share = t := fun hvt => hts hvt.symm
      simpa [hne] using h.share t n hn
  · have hu' : u ∈ ws := by
      rcases List.mem_cons.1 hu with rfl | hu
      · exact hv
      · exact hu
    obtain ⟨n, hn, h1, h2⟩ := h.window u hu'
    rw [get_reference hm]
    split
    · rename_i hus
      rw [hus, hm] at hn
      cases hn
      exact ⟨_, rfl, h1, h2⟩
    · exact ⟨n, hn, h1, h2⟩

/-- A window goes, and with the last one the map. -/
theorem SharesOk.deallocate (h : SharesOk (v :: ws) sh) : SharesOk ws (sh.deallocate v.share) := by
  obtain ⟨m, hm, hlo, hhi⟩ := h.window v (by simp)
  obtain ⟨h1, h2, h3, h4⟩ := h.share _ m hm
  have hcount : m.refCount = ws.countP (·.share == v.share) + 1 := by simpa [List.countP_cons] using h4
  have hother : ∀ t n, t ≠ v.share → sh.get t = some n →
      t < sh.next ∧ ShareOk n ∧ 0 < n.refCount ∧ n.refCount = ws.countP (·.share == t) := fun t n hne hn => by
    have hne' : ¬v.share = t := fun hvt => hne hvt.symm
    simpa [List.countP_cons, hne'] using h.share t n hn
  rw [Shares.deallocate, hm]
  simp only
  split
  · rename_i hpos
    refine ⟨fun t n hn => ?_, fun u hu => ?_⟩
    · rw [get_set] at hn
      split at hn
      · rename_i hts
        cases hn
        subst hts
        exact ⟨h1, h2.withRefCount _, hpos, by simp only; omega⟩
      · rename_i hts
        exact hother t n hts hn
    · obtain ⟨n, hn, h1, h2⟩ := h.window u (List.mem_cons_of_mem _ hu)
      rw [get_set]
      split
      · rename_i hus
        rw [hus, hm] at hn
        cases hn
        exact ⟨_, rfl, h1, h2⟩
      · exact ⟨n, hn, h1, h2⟩
  · rename_i hpos
    refine ⟨fun t n hn => ?_, fun u hu => ?_⟩
    · rw [get_set] at hn
      split at hn
      · cases hn
      · rename_i hts
        exact hother t n hts hn
    · obtain ⟨n, hn, h1, h2⟩ := h.window u (List.mem_cons_of_mem _ hu)
      have hus : u.share ≠ v.share := fun hus => by
        have : 0 < ws.countP (·.share == v.share) := List.countP_pos_iff.2 ⟨u, hu, by simp [hus]⟩
        omega
      rw [get_set, if_neg hus]
      exact ⟨n, hn, h1, h2⟩

/-- A new sharing map with one window, all of it. -/
theorem SharesOk.create (h : SharesOk ws sh) (hok : ShareOk m) (hrc : m.refCount = 1) (hs : v.share = sh.next)
    (hlo : m.minOffset ≤ v.offset) (hhi : v.offset + v.len ≤ m.maxOffset) : SharesOk (v :: ws) (sh.create m) := by
  have hnone : ∀ u ∈ ws, u.share ≠ sh.next := fun u hu hus => by
    obtain ⟨n, hn, -⟩ := h.window u hu
    exact Nat.lt_irrefl _ (hus ▸ (h.share _ n hn).1)
  have hget : ∀ t, (sh.create m).get t = if t = sh.next then some m else sh.get t := fun t => get_set ..
  refine ⟨fun t n hn => ?_, fun u hu => ?_⟩
  · rw [hget] at hn
    show t < sh.next + 1 ∧ _
    split at hn
    · rename_i hts
      cases hn
      have hzero : ws.countP (·.share == sh.next) = 0 := List.countP_eq_zero.2 fun u hu => by simpa using hnone u hu
      refine ⟨by omega, hok, by omega, ?_⟩
      rw [hts, List.countP_cons, hzero]
      simp [hs, hrc]
    · rename_i hts
      have hne : ¬v.share = t := fun hvt => hts (hvt ▸ hs)
      obtain ⟨h1, h2, h3, h4⟩ := h.share t n hn
      exact ⟨by omega, h2, h3, by simpa [List.countP_cons, hne] using h4⟩
  · rw [hget]
    rcases List.mem_cons.1 hu with rfl | hu
    · rw [if_pos hs]
      exact ⟨m, rfl, hlo, hhi⟩
    · rw [if_neg (hnone u hu)]
      exact h.window u hu

end SharesOk

/-! ## Sharing maps keep their form -/

section Reshape
variable {m : Map} {b r es : List Entry} {e x y : Entry}

theorem ShareOk.withHint (h : ShareOk m) {q : Ref} (hq : Live m.entries q) : ShareOk { m with hint := q } :=
  ⟨h.linked.withHint hq, h.covers, h.plain⟩

theorem ShareOk.lookup (h : ShareOk m) (a : Nat) : ShareOk (vmMapLookupEntry m a).2.2 := by
  have hl := lookup_spec h.linked a
  rw [hl.same]
  exact h.withHint hl.live

theorem mem_of_touch {R : Entry → Entry → Prop} {es' : List Entry} (ht : List.Forall₂ R es es') (he : e ∈ es) :
    ∃ e' ∈ es', R e e' := by
  induction ht with
  | nil => cases he
  | cons hx _ ih =>
    rcases List.mem_cons.1 he with rfl | he
    · exact ⟨_, by simp, hx⟩
    · obtain ⟨e', he', hr⟩ := ih he
      exact ⟨e', by simp [he'], hr⟩

theorem ShareOk.touch {es' : List Entry} (h : ShareOk m) (ht : List.Forall₂ Entry.SamePlace m.entries es')
    (hp : ∀ e ∈ es', e.mapRef = none) : ShareOk { m with entries := es' } := by
  refine ⟨linked_touch h.linked ht, fun a hlo hhi => ?_, hp⟩
  obtain ⟨e, he, h1, h2⟩ := h.covers a hlo hhi
  obtain ⟨e', he', hs⟩ := mem_of_touch ht he
  exact ⟨e', he', by rw [hs.start]; exact h1, by rw [hs.end_]; exact h2⟩

theorem ShareOk.split (h : ShareOk m) (hm : m.entries = b ++ e :: r) (hs : Splits m.nextId e x y)
    (hx : x.mapRef = none) (hy : y.mapRef = none) : ShareOk { m.linked with entries := b ++ x :: y :: r } := by
  refine ⟨linked_split h.linked hm hs, fun a hlo hhi => ?_, fun u hu => ?_⟩
  · obtain ⟨u, hu, h1, h2⟩ := h.covers a hlo hhi
    simp only [hm, List.mem_append, List.mem_cons] at hu
    rcases hu with hu | rfl | hu
    · exact ⟨u, by simp [hu], h1, h2⟩
    · by_cases ha : a < x.end_
      · exact ⟨x, by simp, by rw [hs.start]; exact h1, ha⟩
      · exact ⟨y, by simp, by rw [hs.middle]; omega, by rw [hs.end_]; exact h2⟩
    · exact ⟨u, by simp [hu], h1, h2⟩
  · simp only [List.mem_append, List.mem_cons] at hu
    rcases hu with hu | rfl | rfl | hu
    · exact h.plain u (by simp [hm, hu])
    · exact hx
    · exact hy
    · exact h.plain u (by simp [hm, hu])

end Reshape

theorem SharesOk.lookupEntry {ws : List Window} {sh : Shares} (h : SharesOk ws sh) (s a : Nat) :
    SharesOk ws (sh.lookupEntry s a) := by
  unfold Shares.lookupEntry
  split
  · rename_i m hm
    obtain ⟨-, hok, -⟩ := h.share s m hm
    have hl := (lookup_spec hok.linked a).same
    exact h.update hm (hok.lookup a) (by rw [hl]) (by rw [hl]) (by rw [hl])
  · exact h

end BsdKernel.VmMap
