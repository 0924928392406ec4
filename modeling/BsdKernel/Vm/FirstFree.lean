import BsdKernel.Vm.Findspace
import Mathlib.Data.List.Nodup
/-!
# The free-space hint

What the operations do to `first_free`. Those that clip entries or change them in their places leave the
hint where it is and unmap nothing (`Kept.filled`); deleting, inserting and simplifying move it.
`findspace_runs` says which runs keep all that is before its end mapped.
-/

namespace BsdKernel.VmMap

open Lib

variable {es es' : List Entry} {body : Entry → Space → List Entry × Space}

/-! ## What leaves the hint where it is -/

theorem Keeps.filled {m m' : Map} (h : Keeps m m') (hlive : Live m.entries m.firstFree) (hf : Filled m) : Filled m' := by
  intro x hx hfree a hlo hhi
  rw [h.firstFree] at hfree
  rw [h.minOffset] at hlo
  obtain ⟨e, he, hid, hle⟩ := h.ends x hx (hlive x.id hfree)
  exact h.mapped a (hf e he (hid ▸ hfree) a hlo (Nat.lt_of_lt_of_le hhi hle))

theorem Kept.filled {others : List Window} {v w : Space} (h : Kept others v w) (hv : Good others v) (hf : Filled v.map) : Filled w.map :=
  h.keeps.filled hv.linked.firstFree hf

/-! ## Deleting -/

section Delete
variable {others : List Window} {w : Space} {b r : List Entry} {m : Map} {start : Nat}

theorem eq_of_id (hn : (ids es).Nodup) {e x : Entry} (he : e ∈ es) (hx : x ∈ es) (hid : e.id = x.id) : e = x :=
  List.inj_on_of_nodup_map hn he hx hid

theorem Mapped.before {a : Nat} (h : Mapped (b ++ r) a) (hr : ∀ x ∈ r, a < x.start) : Mapped b a := by
  obtain ⟨x, hx, hlo, hhi⟩ := h
  rcases List.mem_append.1 hx with hx | hx
  · exact ⟨x, hx, hlo, hhi⟩
  · have := hr x hx
    omega

theorem Mapped.append {a : Nat} (h : Mapped b a) (r : List Entry) : Mapped (b ++ r) a := by
  obtain ⟨x, hx, hin⟩ := h
  exact ⟨x, List.mem_append_left r hx, hin⟩

theorem sweepDelete_frame (end_ : Nat) (r : List Entry) : ∀ w : Space,
    (sweep end_ entryDelete r w).2.map.minOffset = w.map.minOffset ∧
      (sweep end_ entryDelete r w).2.map.firstFree = w.map.firstFree := by
  have hclip : ∀ (w : Space) (e : Entry), (clipEnd w e end_).2.2.map.minOffset = w.map.minOffset ∧
      (clipEnd w e end_).2.2.map.firstFree = w.map.firstFree := fun w e => by
    unfold clipEnd
    split <;> exact ⟨rfl, rfl⟩
  induction r with
  | nil => exact fun _ => ⟨rfl, rfl⟩
  | cons e r ih =>
    intro w
    rw [sweep]
    split
    · have hsame := hclip w e
      generalize clipEnd w e end_ = c at hsame ⊢
      obtain ⟨e1, behind, w1⟩ := c
      cases behind with
      | nil =>
        obtain ⟨hmin, hfree⟩ := ih (entryDelete e1 w1).2
        exact ⟨hmin.trans hsame.1, hfree.trans hsame.2⟩
      | cons x xs => exact hsame
    · exact ⟨rfl, rfl⟩

/-- The hint is moved before the place where deleting begins, if it is not there: all before it stays. -/
theorem filled_deleteFrom (end_ : Nat) (h : Good others w) (hm : w.map.entries = b ++ r) (hb : ∀ x ∈ b, x.end_ ≤ start)
    (hr : ∀ x ∈ r, start ≤ x.start) (hh : Live b w.map.hint) (hf : Filled w.map) (v : Space)
    (hv : v = if w.map.start w.map.firstFree ≥ start then { w with map := { w.map with firstFree := lastRef b } } else w) :
    Filled ((sweep end_ entryDelete r v).2.withEntries (b ++ (sweep end_ entryDelete r v).1)).map := by
  have hgood : Good others ((sweep end_ entryDelete r v).2.withEntries (b ++ (sweep end_ entryDelete r v).1)) :=
    good_deleteFrom start h hm hr hh v hv
  obtain ⟨hmin, hfree⟩ := sweepDelete_frame end_ r v
  intro e he hhint a hlo hhi
  refine Mapped.append ?_ _
  have hlo : w.map.minOffset ≤ a := by
    have hvmin : v.map.minOffset = w.map.minOffset := by rw [hv]; split <;> rfl
    rw [← hvmin, ← hmin]
    exact hlo
  have hhint : v.map.firstFree = some e.id := hfree.symm.trans hhint
  have hlive : Live b v.map.firstFree := by
    rw [hv]
    split
    · exact by simpa using live_lastRef b []
    · rename_i hnot
      exact (live_firstFree h.linked hm hr).resolve_left hnot
  obtain ⟨x, hx, hxe⟩ := List.mem_map.1 (hlive e.id hhint)
  have hex : e = x := eq_of_id hgood.linked.nodup he (List.mem_append_left _ hx) hxe.symm
  subst hex
  have hend := hb e hx
  have hmapped : ∀ y ∈ w.map.entries, w.map.firstFree = some y.id → a < y.end_ → Mapped b a := fun y hy hyfree hya => by
    have hall := hf y hy hyfree a hlo hya
    rw [hm] at hall
    refine hall.before fun z hz => ?_
    have := hr z hz
    omega
  rw [hv] at hhint
  split at hhint
  · rename_i hge
    -- The hint was at or behind `start`.
    rcases h.linked.firstFree.cases with hnone | ⟨y, hy, hyfree⟩
    · rw [hnone] at hge
      have : w.map.start none = w.map.minOffset := rfl
      omega
    · obtain ⟨b', r', hmid⟩ := List.append_of_mem hy
      rw [hyfree, start_middle hmid h.linked.nodup] at hge
      have := (h.linked.ordered.mem hy).2.1
      exact hmapped y hy hyfree (by omega)
  · exact hmapped e (by rw [hm]; exact List.mem_append_left _ hx) hhint hhi

theorem filled_delete (h : Good others w) (hf : Filled w.map) (start end_ : Nat) : Filled (vmMapDelete w start end_).map := by
  have hl := lookup_spec h.linked start
  have hg := good_lookup h start
  have hf' := (keeps_lookup h.linked start).filled h.linked.firstFree hf
  have hloc : Locates (vmMapLookupEntry w.map start).2.2.entries start (vmMapLookupEntry w.map start).1
      (vmMapLookupEntry w.map start).2.1 := by
    rw [hl.same]
    exact hl.locates
  have hmiss := hl.missed
  unfold vmMapDelete
  generalize vmMapLookupEntry w.map start = found at hg hf' hloc hmiss ⊢
  obtain ⟨found, entry, m⟩ := found
  cases found with
  | true =>
    obtain ⟨b, e, r, hat, hm, hkept, hb, hstart, -⟩ := kept_clipStartAt (.refl hg) hloc
    have hclip := hkept.filled hg hf'
    have hgood := hkept.good
    simp only [if_true, hat]
    have hord := (List.pairwise_append.1 (hm ▸ hgood.linked.ordered).pairwise).2.1
    have hhint := hgood.withHint (q := lastRef b) (hm ▸ live_lastRef b (e :: r))
    refine filled_deleteFrom end_ hhint hm hb (fun x hx => ?_) (by simpa using live_lastRef b []) hclip _ rfl
    rcases List.mem_cons.1 hx with rfl | hx
    · exact hstart
    · have := ((List.pairwise_cons.1 hord).1 x hx).1
      omega
  | false =>
    obtain ⟨b, r, hat, hm, href, hb, hr⟩ := good_after hg hloc
    simp only [Bool.false_eq_true, if_false, hat]
    refine filled_deleteFrom end_ hg hm hb (fun x hx => Nat.le_of_lt (hr x hx)) ?_ hf' _ rfl
    rw [hmiss rfl, href]
    simpa using live_lastRef b []

end Delete

/-! ## Inserting -/

/-- A new entry goes behind the header although the hint is at the header. -/
structure Opens (m : Map) (start end_ : Nat) : Prop where
  header : m.firstFree = none
  min : m.minOffset ≤ start
  nonempty : start < end_
  max : end_ ≤ m.maxOffset
  first : ∀ e ∈ m.entries, end_ ≤ e.start

section Insert
variable {others : List Window} {m : Map} {sh : Shares} {b r : List Entry} {e x : Entry} {start end_ : Nat}

theorem filled_widen {m' : Map} (hf : Filled m) (hm' : m'.entries = b ++ { e with end_ } :: r) (hmin : m'.minOffset = m.minOffset)
    (hmap : ∀ a, Mapped m.entries a → Mapped m'.entries a) (hsub : ∀ y ∈ b ++ r, y ∈ m.entries)
    (hothers : ∀ y ∈ b ++ r, m'.firstFree = some y.id → m.firstFree = some y.id)
    (hthis : m'.firstFree = some e.id → ∀ a, m.minOffset ≤ a → a < e.start → Mapped m.entries a) : Filled m' := by
  intro y hy hfree a hlo hhi
  rw [hmin] at hlo
  have hwide : { e with end_ } ∈ m'.entries := by simp [hm']
  have hcases : y ∈ b ++ r ∨ y = { e with end_ } := by
    rw [hm', List.mem_append, List.mem_cons] at hy
    rw [List.mem_append]
    tauto
  rcases hcases with hy | rfl
  · exact hmap a (hf y (hsub y hy) (hothers y hy hfree) a hlo hhi)
  · by_cases ha : a < e.start
    · exact hmap a (hthis hfree a hlo ha)
    · exact ⟨_, hwide, Nat.not_lt.1 ha, hhi⟩

theorem filled_extend (h : Linked m) (hf : Filled m) (hm : m.entries = b ++ e :: r) (hend : e.end_ ≤ end_) (size : Int) :
    Filled { m with size, entries := b ++ { e with end_ } :: r } := by
  have he := h.ordered.mem (show e ∈ m.entries by simp [hm])
  refine filled_widen hf rfl rfl (fun a ha => ?_) (fun y hy => ?_) (fun _ _ hq => hq) fun hq a hlo ha => ?_
  · refine ha.mono fun y hy => ?_
    rw [hm, List.mem_append, List.mem_cons] at hy
    rcases hy with hy | rfl | hy
    · exact ⟨y, by simp [hy], Nat.le_refl _, Nat.le_refl _⟩
    · exact ⟨_, List.mem_append_right _ (.head _), Nat.le_refl _, hend⟩
    · exact ⟨y, by simp [hy], Nat.le_refl _, Nat.le_refl _⟩
  · rw [hm, List.mem_append, List.mem_cons]
    exact (List.mem_append.1 hy).imp_right .inr
  · exact hf e (by simp [hm]) hq a hlo (by omega)

/-- A new entry, and the hint to it if it was at the entry before, which ends where this one begins. -/
theorem filled_link (h : Linked m) (hf : Filled m) (hm : m.entries = b ++ r) (hid : e.id = m.nextId) (q : Ref)
    (hq : q = if m.firstFree = lastRef b ∧ m.end_ (lastRef b) ≥ e.start then some e.id else m.firstFree)
    (hb : ∀ x ∈ b, x.end_ ≤ e.start) (hopen : b = [] → m.firstFree = none → e.start = m.minOffset) (size : Int) :
    Filled { m.linked with entries := b ++ e :: r, size, firstFree := q } := by
  have hmap : ∀ a, Mapped m.entries a → Mapped (b ++ e :: r) a := fun a ha => by
    refine ha.mono fun y hy => ⟨y, ?_, Nat.le_refl _, Nat.le_refl _⟩
    rw [hm] at hy
    rcases List.mem_append.1 hy with hy | hy <;> simp [hy]
  have hfresh : ∀ y ∈ m.entries, y.id ≠ e.id := fun y hy heq => by
    have := h.fresh y.id (List.mem_map_of_mem hy)
    omega
  intro y hy hfree a hlo hhi
  have hcases : y = e ∨ y ∈ m.entries := by
    rw [hm, List.mem_append]
    simp only [List.mem_append, List.mem_cons] at hy
    tauto
  have hhint : q = some y.id := hfree
  have hlo : m.minOffset ≤ a := hlo
  rw [hq] at hhint
  split at hhint
  · rename_i hlast
    have hye : y = e := hcases.resolve_right fun hy => hfresh y hy (Option.some.inj hhint).symm
    subst hye
    by_cases ha : y.start ≤ a
    · exact ⟨y, by simp, ha, hhi⟩
    · obtain ⟨hheader, hge⟩ := hlast
      rcases List.eq_nil_or_concat b with rfl | ⟨b', p, rfl⟩
      · have := hopen rfl (by simpa [lastRef] using hheader)
        omega
      · -- The hint was at the entry before, and that ends where this one begins.
        have hm' : m.entries = b' ++ p :: r := by simpa using hm
        have hp : lastRef (b' ++ [p]) = some p.id := by simp [lastRef]
        rw [List.concat_eq_append, hp] at hheader hge
        rw [end_middle hm' h.nodup] at hge
        exact hmap a (hf p (by simp [hm']) hheader a hlo (by omega))
  · rcases hcases with rfl | hy
    · obtain ⟨z, hz, hzy⟩ := List.mem_map.1 (h.firstFree y.id hhint)
      exact absurd hzy (hfresh z hz)
    · exact hmap a (hf y hy hhint a hlo hhi)

theorem filled_insert (env : Env) (h : Good others ⟨m, sh⟩) (hf : Filled m) (object : Option Nat) (offset : Nat)
    (hok : Opens m start end_ → start = m.minOffset) : Filled (vmMapInsert env m object offset start end_).2 := by
  unfold vmMapInsert
  split
  · exact hf
  · rename_i hrange
    have hl := lookup_spec h.linked start
    have hg := good_lookup h start
    have hf' := (keeps_lookup h.linked start).filled h.linked.firstFree hf
    have hloc : Locates (vmMapLookupEntry m start).2.2.entries start (vmMapLookupEntry m start).1
        (vmMapLookupEntry m start).2.1 := by
      rw [hl.same]
      exact hl.locates
    have hsame := hl.same
    have hlinked := h.linked
    simp only at hsame hlinked
    generalize vmMapLookupEntry m start = found at hg hf' hloc hsame ⊢
    obtain ⟨found, prev, n⟩ := found
    simp only at hg hf' hloc hsame ⊢
    have hmin : n.minOffset = m.minOffset := by rw [hsame]
    have hmax : n.maxOffset = m.maxOffset := by rw [hsame]
    have hfree : n.firstFree = m.firstFree := by rw [hsame]
    have hentries : n.entries = m.entries := by rw [hsame]
    cases found with
    | true => exact hf'
    | false =>
      obtain ⟨b, r, hat, hm, href, hb, hr⟩ := good_after hg hloc
      simp only at hat hm
      simp only [Bool.false_eq_true, if_false, hat]
      split
      · exact hf'
      · rename_i hnext
        have hgap : ∀ x ∈ r.head?, end_ ≤ x.start := fun x hx => by
          simp only [Option.any_eq_true, not_exists, not_and, decide_eq_true_eq] at hnext
          exact Nat.not_lt.1 (hnext x hx)
        split
        · rename_i e heq
          obtain ⟨hlast, hext⟩ := Option.filter_eq_some_iff.1 heq
          obtain ⟨hend, -⟩ := extends_spec hext
          obtain ⟨b, rfl⟩ : ∃ b', b = b' ++ [e] := List.getLast?_eq_some_iff.1 hlast
          rw [List.dropLast_concat]
          exact filled_extend hg.linked hf' (by simpa using hm) (by omega) _
        · obtain ⟨hid, hst, hen, -⟩ := newEntry_spec env n object offset start end_
          refine filled_link hg.linked hf' hm hid _ ?_ (by rw [hst]; exact hb) (fun hnil hheader => ?_) _
          · rw [hst, href]
          · -- The entry goes behind the header.
            subst hnil
            rw [hst, hmin]
            refine hok ⟨hfree.symm.trans hheader, by omega, by omega, by omega, fun x hx => ?_⟩
            rw [← hentries, hm, List.nil_append] at hx
            have hord : Ordered n.maxOffset n.minOffset r := by
              have := hg.linked.ordered
              simp only [hm, List.nil_append] at this
              exact this
            exact ((hord.raise hgap).mem hx).1

/-- A lookup of the place stops at the header. -/
theorem Opens.lookup (hopen : Opens m start end_) (h : Linked m) :
    (vmMapLookupEntry m start).1 = false ∧ (vmMapLookupEntry m start).2.1 = none := by
  have hl := (lookup_spec h start).locates
  have hin : ∀ x ∈ m.entries, start < x.start ∧ start < x.end_ := fun x hx => by
    have := hopen.first x hx
    have := hopen.nonempty
    have := (h.ordered.mem hx).2.1
    omega
  generalize vmMapLookupEntry m start = p at hl ⊢
  obtain ⟨found, prev, n⟩ := p
  cases found with
  | true =>
    obtain ⟨b, e, r, hm, -, hlo, -⟩ := hl.entry
    have := (hin e (by simp [hm])).1
    omega
  | false =>
    obtain ⟨b, r, hm, href, hb, -⟩ := hl
    have hnil : b = [] := List.eq_nil_iff_forall_not_mem.2 fun x hx => by
      have := (hin x (by simp [hm, hx])).2
      have := hb x hx
      omega
    exact ⟨rfl, by rw [hnil] at href; exact href⟩

/-- An entry behind the header that does not begin at `min_offset` leaves a gap before it. -/
theorem not_filled_insert (env : Env) (h : Linked m) (object : Option Nat) (offset : Nat) (hopen : Opens m start end_)
    (hne : start ≠ m.minOffset) : ¬Filled (vmMapInsert env m object offset start end_).2 := by
  obtain ⟨hmiss, hprev⟩ := hopen.lookup h
  obtain ⟨hheader, hmin, hlt, hmax, hfirst⟩ := hopen
  have hsame := (lookup_spec h start).same
  unfold vmMapInsert
  rw [if_neg (by omega)]
  generalize vmMapLookupEntry m start = found at hmiss hprev hsame ⊢
  obtain ⟨found, prev, n⟩ := found
  simp only at hmiss hprev hsame ⊢
  subst hmiss hprev
  have hafter : n.after none = ([], m.entries) := by rw [hsame]; rfl
  have hfree : n.firstFree = none ∧ n.end_ none ≥ start := by
    have hend : n.end_ none = m.maxOffset := by rw [hsame]; rfl
    rw [hend]
    exact ⟨by rw [hsame]; exact hheader, by omega⟩
  have hnext : (m.entries.head?.any fun x => decide (x.start < end_)) ≠ true := by
    simp only [ne_eq, Option.any_eq_true, not_exists, not_and, decide_eq_true_eq]
    intro x hx
    have := hfirst x (List.mem_of_mem_head? hx)
    omega
  have hlow : n.minOffset = m.minOffset := by rw [hsame]
  simp only [Bool.false_eq_true, if_false, hafter, if_neg hnext, List.getLast?_nil, Option.filter_none, if_pos hfree]
  intro hfilled
  obtain ⟨hid, hst, hen, -⟩ := newEntry_spec env n object offset start end_
  obtain ⟨x, hx, hlo, hhi⟩ := hfilled (newEntry env n object offset start end_) (.head _) rfl m.minOffset
    (Nat.le_of_eq hlow) (by rw [hen]; omega)
  rcases List.mem_cons.1 hx with rfl | hx
  · omega
  · have := hfirst x hx
    omega

end Insert

/-! ## Simplifying and finding -/

section Simplify
variable {others : List Window} {m : Map} {sh : Shares} {b r : List Entry} {e x : Entry}

theorem filled_merge (h : Linked m) (hf : Filled m) (hm : m.entries = b ++ x :: e :: r) (hend : e.start ≤ x.end_) :
    Filled { m with
      firstFree := if m.firstFree = some e.id then some x.id else m.firstFree
      hint := some x.id
      nentries := m.nentries - 1
      entries := b ++ { x with end_ := e.end_ } :: r } := by
  have hx := h.ordered.mem (show x ∈ m.entries by simp [hm])
  have he := h.ordered.mem (show e ∈ m.entries by simp [hm])
  have hpair := List.pairwise_append.1 (hm ▸ h.ordered).pairwise
  have hxe := ((List.pairwise_cons.1 hpair.2.1).1 e (by simp)).2
  have hne : ∀ y ∈ b ++ r, y.id ≠ x.id := fun y hy hid => by
    have hn := h.nodup
    rw [hm, ids_append, ids_cons, ids_cons, List.nodup_append] at hn
    obtain ⟨-, hn, hdisj⟩ := hn
    rcases List.mem_append.1 hy with hy | hy
    · exact hdisj y.id (List.mem_map_of_mem hy) x.id (.head _) hid
    · exact (List.nodup_cons.1 hn).1 (hid ▸ List.mem_cons_of_mem _ (List.mem_map_of_mem hy))
  refine filled_widen hf rfl rfl (fun a ha => ?_) (fun y hy => ?_) (fun y hy hq => ?_) fun hq a hlo ha => ?_
  · refine ha.mono fun y hy => ?_
    rw [hm] at hy
    simp only [List.mem_append, List.mem_cons] at hy
    rcases hy with hy | rfl | rfl | hy
    · exact ⟨y, by simp [hy], Nat.le_refl _, Nat.le_refl _⟩
    · exact ⟨_, List.mem_append_right _ (.head _), Nat.le_refl _, show y.end_ ≤ e.end_ by omega⟩
    · exact ⟨_, List.mem_append_right _ (.head _), show x.start ≤ y.start by omega, Nat.le_refl _⟩
    · exact ⟨y, by simp [hy], Nat.le_refl _, Nat.le_refl _⟩
  · rw [hm]
    rcases List.mem_append.1 hy with hy | hy <;> simp [hy]
  · simp only at hq
    split at hq
    · exact absurd (Option.some.inj hq).symm (hne y hy)
    · exact hq
  · simp only at hq
    split at hq
    · rename_i hfree
      exact hf e (by simp [hm]) hfree a hlo (by omega)
    · exact hf x (by simp [hm]) hq a hlo (by omega)

theorem filled_simplify (h : Good others ⟨m, sh⟩) (hf : Filled m) (start : Nat) : Filled (vmMapSimplify m start) := by
  have hl := lookup_spec h.linked start
  have hg := good_lookup h start
  have hf' := (keeps_lookup h.linked start).filled h.linked.firstFree hf
  have hloc : Locates (vmMapLookupEntry m start).2.2.entries start (vmMapLookupEntry m start).1
      (vmMapLookupEntry m start).2.1 := by
    rw [hl.same]
    exact hl.locates
  simp only at hf'
  unfold vmMapSimplify
  generalize vmMapLookupEntry m start = found at hg hf' hloc ⊢
  obtain ⟨found, entry, n⟩ := found
  simp only at hg hf' hloc ⊢
  split
  · rename_i x e r hlast hrest
    split
    · rename_i hmerge
      obtain ⟨b, e', r', hm, rfl, hlo, hhi⟩ := hloc.entry
      rw [at_middle hm hg.linked.nodup] at hlast hrest ⊢
      cases hrest
      obtain ⟨b, rfl⟩ : ∃ b', b = b' ++ [x] := List.getLast?_eq_some_iff.1 hlast
      rw [List.dropLast_concat]
      have hend := (mergeable_spec hmerge).1
      exact filled_merge hg.linked hf' (by simpa using hm) (by omega)
    · exact hf'
  · exact hf'

/-- The loop returns the address it is given, or the end of an entry. -/
theorem findspaceLoop_from (hi length : Nat) (es : List Entry) : ∀ (s : Nat) (q : Ref) (a : Nat) (q' : Ref),
    findspaceLoop hi length s q es = some (a, q') → a = s ∨ ∃ x ∈ es, a = x.end_ := by
  induction es with
  | nil =>
    intro s q a q' ha
    rw [findspaceLoop] at ha
    split at ha
    · cases ha
    · cases ha
      exact .inl rfl
  | cons e es ih =>
    intro s q a q' ha
    rw [findspaceLoop] at ha
    split at ha
    · cases ha
    · split at ha
      · cases ha
        exact .inl rfl
      · rcases ih _ _ _ _ ha with rfl | ⟨x, hx, rfl⟩
        · exact .inr ⟨e, .head _, rfl⟩
        · exact .inr ⟨x, .tail _ hx, rfl⟩

end Simplify

end BsdKernel.VmMap
