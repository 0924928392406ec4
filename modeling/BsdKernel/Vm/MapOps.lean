import BsdKernel.Vm.MapKeeps
/-!
# The map operations keep the invariant

`Good` is the invariant of a map together with the sharing maps it refers to. Each
section takes one group of operations of `kern/vm/vm_map.c` through it. Those that clip
entries or change them in their places are taken through `Kept`, which says with it that
all that was mapped is.
-/

namespace BsdKernel.VmMap

open VmObject (vmAdd)

variable {b r : List Entry} {e x : Entry} {start end_ : Nat}

/-- The map is linked, `size` is what its entries map, and the sharing maps are in order
for its windows and those of the other maps. -/
structure Good (others : List Window) (w : Space) : Prop where
  linked : Linked w.map
  size : w.map.size = total w.map.entries
  noSub : ∀ e ∈ w.map.entries, e.isSubMap = false
  shares : SharesOk (windows w.map.entries ++ others) w.shares

/-- From `v` on the invariant was kept, and what was mapped. -/
structure Kept (others : List Window) (v w : Space) : Prop where
  good : Good others w
  keeps : Keeps v.map w.map

section Changes
variable {others : List Window} {v w w' : Space} {es es' : List Entry} {y : Entry} {a : Nat}

theorem Kept.refl (h : Good others w) : Kept others w w := ⟨h, Keeps.refl _⟩

theorem Kept.step (h : Kept others v w) (hg : Good others w') (hk : Keeps w.map w'.map) : Kept others v w' :=
  ⟨hg, h.keeps.trans hk⟩

theorem withEntries_self (w : Space) : w.withEntries w.map.entries = w := rfl

@[simp] theorem withEntries_shares (w : Space) (es : List Entry) : (w.withEntries es).shares = w.shares := rfl

@[simp] theorem withEntries_entries (w : Space) (es : List Entry) : (w.withEntries es).map.entries = es := rfl

theorem Good.withHint (h : Good others w) {q : Ref} (hq : Live w.map.entries q) :
    Good others { w with map := { w.map with hint := q } } :=
  ⟨h.linked.withHint hq, h.size, h.noSub, h.shares⟩

theorem Good.withFirstFree (h : Good others w) {q : Ref} (hq : Live w.map.entries q) :
    Good others { w with map := { w.map with firstFree := q } } :=
  ⟨h.linked.withFirstFree hq, h.size, h.noSub, h.shares⟩

theorem Good.withShares (h : Good others w) (sh : Shares) (hsh : ∀ ws, SharesOk ws w.shares → SharesOk ws sh) :
    Good others { w with shares := sh } :=
  ⟨h.linked, h.size, h.noSub, hsh _ h.shares⟩

/-- The entries keep their places and what they say of other maps. -/
structure Entry.Same (e e' : Entry) : Prop extends Entry.SamePlace e e' where
  window : e'.window = e.window
  isSubMap : e'.isSubMap = e.isSubMap

theorem Entry.Same.refl (e : Entry) : e.Same e := ⟨⟨rfl, rfl, rfl⟩, rfl, rfl⟩

theorem windows_touch (h : List.Forall₂ Entry.Same es es') : windows es' = windows es := by
  induction h with
  | nil => rfl
  | cons hx _ ih =>
    simp only [windows, List.filterMap_cons, hx.window] at ih ⊢
    rw [ih]

theorem good_touch (h : Good others (w.withEntries es)) (ht : List.Forall₂ Entry.Same es es') :
    Good others (w.withEntries es') := by
  have hp : List.Forall₂ Entry.SamePlace es es' := ht.imp fun _ _ hs => hs.toSamePlace
  have hl : Linked { (w.withEntries es).map with entries := es' } := linked_touch h.linked hp
  refine ⟨hl, ?_, fun e he => ?_, ?_⟩
  · exact h.size.trans (total_touch hp).symm
  · obtain ⟨x, hx, hs⟩ := mem_of_touch ht.flip he
    exact hs.isSubMap.trans (h.noSub x hx)
  · show SharesOk (windows es' ++ others) w.shares
    rw [windows_touch ht]
    exact h.shares

theorem touch_middle (b r : List Entry) (hs : e.Same x) : List.Forall₂ Entry.Same (b ++ e :: r) (b ++ x :: r) := by
  have hrefl : ∀ l : List Entry, List.Forall₂ Entry.Same l l := fun l =>
    List.forall₂_same.2 fun e _ => Entry.Same.refl e
  exact List.rel_append (hrefl b) (.cons hs (hrefl r))

theorem kept_touch (h : Kept others v (w.withEntries es)) (ht : List.Forall₂ Entry.Same es es') :
    Kept others v (w.withEntries es') :=
  h.step (good_touch h.good ht) (keeps_touch (w.withEntries es).map (ht.imp fun _ _ hs => hs.toSamePlace))

theorem kept_touchAt (h : Kept others v (w.withEntries (b ++ e :: r))) (hs : e.Same x) :
    Kept others v (w.withEntries (b ++ x :: r)) :=
  kept_touch h (touch_middle b r hs)

theorem windows_middle (b r : List Entry) (e : Entry) (o : List Window) :
    (windows (b ++ e :: r) ++ o).Perm (e.window.toList ++ (windows (b ++ r) ++ o)) := by
  rw [windows_append, windows_append, windows, windows, List.filterMap_cons]
  cases e.window with
  | none => exact List.Perm.refl _
  | some v =>
    simp only [List.append_assoc, List.cons_append, Option.toList_some, List.nil_append]
    exact List.perm_middle

/-- An entry is clipped at `a`, inside of it. -/
theorem good_clip (h : Good others (w.withEntries (b ++ e :: r))) (hlo : e.start < a) (hhi : a < e.end_) {i j : Nat}
    (hij : i = w.map.nextId ∧ j = e.id ∨ i = e.id ∧ j = w.map.nextId) :
    Good others ((w.cloned e).withEntries
      (b ++ { e.clipFront a with id := i } :: { e.clipBack a with id := j } :: r)) := by
  have hs : Splits w.map.nextId e { e.clipFront a with id := i } { e.clipBack a with id := j } :=
    ⟨rfl, rfl, rfl, hlo, hhi, hij⟩
  have hsub := h.noSub e (by simp [Space.withEntries])
  have hl : Linked { (w.withEntries (b ++ e :: r)).map.linked with
      entries := b ++ { e.clipFront a with id := i } :: { e.clipBack a with id := j } :: r } :=
    linked_split h.linked rfl hs
  refine ⟨hl, ?_, fun u hu => ?_, ?_⟩
  · exact h.size.trans (total_split hs).symm
  · simp only [Space.withEntries, List.mem_append, List.mem_cons] at hu
    rcases hu with hu | rfl | rfl | hu
    · exact h.noSub u (by simp [Space.withEntries, hu])
    · exact hsub
    · exact hsub
    · exact h.noSub u (by simp [Space.withEntries, hu])
  · have hsh := h.shares.perm (windows_middle b r e others)
    simp only [Space.withEntries, Space.cloned]
    refine SharesOk.perm ?_ (((windows_middle b _ _ others).trans ((windows_middle b r _ others).append_left _)).symm)
    cases ho : e.object with
    | vmObject o => simpa [Entry.window, Entry.mapRef, Entry.clipFront, Entry.clipBack, ho] using hsh
    | subMap s => simp [Entry.isSubMap, ho] at hsub
    | shareMap s =>
      simp only [Entry.window, Entry.mapRef, Entry.clipFront, Entry.clipBack, ho, Option.toList_some,
        List.cons_append, List.nil_append] at hsh ⊢
      obtain ⟨m, hm, h1, h2⟩ := hsh.window _ (List.mem_cons_self ..)
      have hmax := (hsh.share _ m hm).2.1.linked.bound
      have hadd : vmAdd e.offset (a - e.start) = e.offset + (a - e.start) := Nat.mod_eq_of_lt (by simp only at h2; omega)
      rw [hadd]
      -- The copy of the window is narrowed to the front part, then the window to the back part.
      have hfront := (hsh.reference (List.mem_cons_self ..)).narrow ⟨s, e.offset, a - e.start⟩ rfl
        (Nat.le_refl _) (by simp only; omega)
      have hback := (hfront.perm (List.Perm.swap ..)).narrow ⟨s, e.offset + (a - e.start), e.end_ - a⟩ rfl
        (by simp only; omega) (by simp only; omega)
      exact hback.perm (List.Perm.swap ..)

/-- `clipStart` at a place before the end of the entry. -/
structure ClippedStart (w : Space) (e : Entry) (a : Nat) (front : List Entry) (e' : Entry) (w' : Space) : Prop where
  id : e'.id = e.id
  start : a ≤ e'.start
  end_ : e'.end_ = e.end_
  front : ∀ x ∈ front, x.end_ ≤ a
  hint : w'.map.hint = w.map.hint
  firstFree : w'.map.firstFree = w.map.firstFree

theorem clipStart_spec (w : Space) (e : Entry) (a : Nat) :
    ClippedStart w e a (clipStart w e a).1 (clipStart w e a).2.1 (clipStart w e a).2.2 := by
  unfold clipStart
  split
  · exact ⟨rfl, Nat.le_refl _, rfl, by simp [Entry.clipFront], rfl, rfl⟩
  · rename_i ha
    exact ⟨rfl, Nat.not_lt.1 ha, rfl, by simp, rfl, rfl⟩

theorem kept_clip (h : Kept others v (w.withEntries (b ++ e :: r))) (hlo : e.start < a) (hhi : a < e.end_) {i j : Nat}
    (hij : i = w.map.nextId ∧ j = e.id ∨ i = e.id ∧ j = w.map.nextId) : Kept others v ((w.cloned e).withEntries
      (b ++ { e.clipFront a with id := i } :: { e.clipBack a with id := j } :: r)) :=
  h.step (good_clip h.good hlo hhi hij) (keeps_split (b := b) (r := r) h.good.linked rfl ⟨rfl, rfl, rfl, hlo, hhi, hij⟩)

theorem kept_clipStart (h : Kept others v (w.withEntries (b ++ e :: r))) (ha : a < e.end_) :
    Kept others v ((clipStart w e a).2.2.withEntries (b ++ (clipStart w e a).1 ++ (clipStart w e a).2.1 :: r)) := by
  unfold clipStart
  split
  · rename_i hlo
    rw [List.append_assoc]
    exact kept_clip h hlo ha (.inl ⟨rfl, rfl⟩)
  · simpa using h

theorem kept_clipEnd (h : Kept others v (w.withEntries (b ++ e :: r))) (ha : e.start < a) :
    Kept others v ((clipEnd w e a).2.2.withEntries (b ++ (clipEnd w e a).1 :: ((clipEnd w e a).2.1 ++ r))) := by
  unfold clipEnd
  split
  · rename_i hhi
    exact kept_clip h ha hhi (.inr ⟨rfl, rfl⟩)
  · simpa using h

end Changes

/-! ## Looking up and clipping -/

section Enter
variable {others : List Window} {v w : Space} {a : Nat}

theorem good_lookup (h : Good others w) (a : Nat) :
    Good others { w with map := (vmMapLookupEntry w.map a).2.2 } := by
  have hl := lookup_spec h.linked a
  rw [hl.same]
  exact h.withHint hl.live

theorem kept_lookup (h : Kept others v w) (a : Nat) : Kept others v { w with map := (vmMapLookupEntry w.map a).2.2 } :=
  h.step (good_lookup h.good a) (keeps_lookup h.good.linked a)

theorem Locates.entry {es : List Entry} {q : Ref} (h : Locates es a true q) :
    ∃ b e r, es = b ++ e :: r ∧ q = some e.id ∧ e.start ≤ a ∧ a < e.end_ := by
  obtain ⟨b, r, hm, rfl, e, hlast, hlo, hhi⟩ := h
  obtain ⟨b, rfl⟩ : ∃ b', b = b' ++ [e] := List.getLast?_eq_some_iff.1 hlast
  exact ⟨b, e, r, by simpa using hm, by simp [lastRef], hlo, hhi⟩

/-- A lookup that found `a` is followed by a clip. -/
theorem kept_clipStartAt (h : Kept others v w) {entry : Ref} (hl : Locates w.map.entries a true entry) :
    ∃ b e r, (w.clipStartAt entry a).map.at_ entry = (b, e :: r) ∧ (w.clipStartAt entry a).map.entries = b ++ e :: r ∧
      Kept others v (w.clipStartAt entry a) ∧ (∀ x ∈ b, x.end_ ≤ a) ∧ a ≤ e.start ∧ entry = some e.id ∧
      (w.clipStartAt entry a).map.hint = w.map.hint ∧ (w.clipStartAt entry a).map.firstFree = w.map.firstFree := by
  obtain ⟨b, e, r, hm, rfl, hlo, hhi⟩ := hl.entry
  have hat := at_middle hm h.good.linked.nodup
  have hc := clipStart_spec w e a
  have hkept := kept_clipStart (w := w) (b := b) (r := r) (a := a) (by rw [← hm, withEntries_self]; exact h) hhi
  have hb : ∀ x ∈ b, x.end_ ≤ a := fun x hx => by
    have hp := List.pairwise_append.1 (hm ▸ h.good.linked.ordered).pairwise
    have := (hp.2.2 x hx e (by simp)).2
    omega
  have hclip : w.clipStartAt (some e.id) a =
      (clipStart w e a).2.2.withEntries (b ++ (clipStart w e a).1 ++ (clipStart w e a).2.1 :: r) := by
    rw [Space.clipStartAt, hat]
  rw [hclip]
  refine ⟨_, _, _, ?_, rfl, hkept, fun x hx => ?_, hc.start, by rw [hc.id], hc.hint, hc.firstFree⟩
  · rw [← hc.id]
    exact at_middle rfl hkept.good.linked.nodup
  · rcases List.mem_append.1 hx with hx | hx
    · exact hb x hx
    · exact hc.front x hx

/-- A lookup that missed `a` is followed by a step to the next entry. -/
theorem good_after (h : Good others w) {entry : Ref} (hl : Locates w.map.entries a false entry) :
    ∃ b r, w.map.after entry = (b, r) ∧ w.map.entries = b ++ r ∧ entry = lastRef b ∧ (∀ x ∈ b, x.end_ ≤ a) ∧
      ∀ x ∈ r, a < x.start := by
  obtain ⟨b, r, hm, rfl, hb, hr⟩ := hl
  exact ⟨b, r, after_lastRef hm h.linked.nodup, hm, rfl, hb, hr⟩

theorem kept_enter (h : Kept others v w) (start : Nat) :
    Kept others v (enter w start).2.2 ∧ (enter w start).2.2.map.entries = (enter w start).1 ++ (enter w start).2.1 := by
  have hl := lookup_spec h.good.linked start
  have hg := kept_lookup h start
  have hloc : Locates (vmMapLookupEntry w.map start).2.2.entries start (vmMapLookupEntry w.map start).1
      (vmMapLookupEntry w.map start).2.1 := by
    rw [hl.same]
    exact hl.locates
  unfold enter
  split
  rename_i found entry map heq
  rw [heq] at hg hloc
  cases found with
  | true =>
    obtain ⟨b, e, r, hat, hm, hkept, -⟩ := kept_clipStartAt hg hloc
    simp only [if_true, hat]
    exact ⟨hkept, hm⟩
  | false =>
    obtain ⟨b, r, hat, hm, -⟩ := good_after hg.good hloc
    simp only [Bool.false_eq_true, if_false, hat]
    exact ⟨hg, hm⟩

end Enter

/-! ## Sweeps -/

/-- A loop body that changes the entry in its place and, of the rest, only sharing maps. -/
def Touches (body : Entry → Space → List Entry × Space) : Prop :=
  ∀ e w, ∃ e', e.Same e' ∧ (body e w).1 = [e'] ∧ (body e w).2.map = w.map ∧
    ∀ ws, SharesOk ws w.shares → SharesOk ws (body e w).2.shares

section Sweep
variable {others : List Window} {v : Space} {body : Entry → Space → List Entry × Space}

theorem touches_place {f : Entry → Entry} (hf : ∀ e : Entry, e.Same (f e)) : Touches fun e w => ([f e], w) :=
  fun e _ => ⟨f e, hf e, rfl, rfl, fun _ h => h⟩

theorem Touches.kept (hbody : Touches body) {w : Space} (h : Kept others v (w.withEntries (b ++ e :: r))) :
    ∃ e', (body e w).1 = [e'] ∧ Kept others v ((body e w).2.withEntries (b ++ e' :: r)) := by
  obtain ⟨e', hs, hone, hmap, hsh⟩ := hbody e w
  refine ⟨e', hone, ?_⟩
  have htouch := kept_touchAt h hs
  have := htouch.step (htouch.good.withShares (body e w).2.shares hsh) (keeps_same rfl rfl rfl)
  simpa [Space.withEntries, hmap] using this

theorem kept_sweep (hbody : Touches body) (r : List Entry) : ∀ (b : List Entry) (w : Space),
    Kept others v (w.withEntries (b ++ r)) →
      Kept others v ((sweep end_ body r w).2.withEntries (b ++ (sweep end_ body r w).1)) := by
  induction r with
  | nil => intro b w h; exact h
  | cons e r ih =>
    intro b w h
    rw [sweep]
    split
    · rename_i hlt
      have hclip := kept_clipEnd h hlt
      split
      · rename_i e1 w1 heq
        rw [heq] at hclip
        obtain ⟨e', hone, hkept⟩ := hbody.kept hclip
        have hrest := ih (b ++ [e']) (body e1 w1).2 (by simpa using hkept)
        simpa [hone] using hrest
      · rename_i e1 behind w1 _ heq
        rw [heq] at hclip
        obtain ⟨e', hone, hkept⟩ := hbody.kept hclip
        simpa [hone] using hkept
    · exact h

theorem kept_sweepFrom (hbody : Touches body) (end_ : Nat) {w : Space} (h : Kept others v w) (hm : w.map.entries = b ++ r) :
    Kept others v ((sweep end_ body r w).2.withEntries (b ++ (sweep end_ body r w).1)) :=
  kept_sweep hbody r b w (by rw [← hm, withEntries_self]; exact h)

end Sweep

section Attributes
variable {others : List Window} {v w : Space}

theorem touches_protectEntry (newProt : Nat) (setMax : Bool) : Touches (protectEntry newProt setMax) := by
  intro e w
  refine ⟨_, ?_, rfl, ?_, fun ws h => ?_⟩
  · split <;> exact ⟨⟨rfl, rfl, rfl⟩, rfl, rfl⟩
  · unfold protectEntry
    simp only
    repeat' split
    all_goals rfl
  · unfold protectEntry
    simp only
    repeat' split
    all_goals first | exact h.lookupEntry _ _ | exact h

theorem kept_protect (h : Kept others v w) (start end_ newProt : Nat) (setMax : Bool) :
    Kept others v (vmMapProtect w start end_ newProt setMax).2 := by
  unfold vmMapProtect
  simp only
  obtain ⟨hk, hm⟩ := kept_enter h (rangeCheck w.map start end_).1
  split
  · exact kept_sweepFrom (touches_protectEntry newProt setMax) _ hk hm
  · exact hk

theorem kept_inherit (h : Kept others v w) (start end_ newInheritance : Nat) :
    Kept others v (vmMapInherit w start end_ newInheritance).2 := by
  unfold vmMapInherit
  cases inheritOf newInheritance with
  | none => exact h
  | some i =>
    obtain ⟨hk, hm⟩ := kept_enter h (rangeCheck w.map start end_).1
    exact kept_sweepFrom (touches_place (f := fun e => { e with inheritance := i }) fun _ => ⟨⟨rfl, rfl, rfl⟩, rfl, rfl⟩) _ hk hm

end Attributes

/-! ## Wiring -/

section Wire
variable {others : List Window} {v w : Space} {es : List Entry}

theorem same_resolve (env : Env) (faultType : Nat) (e : Entry) : e.Same (e.resolve env faultType) := by
  unfold Entry.resolve
  split
  · rename_i o ho
    repeat' split
    all_goals exact ⟨⟨rfl, rfl, rfl⟩, by simp [Entry.window, ho], by simp [Entry.isSubMap, ho]⟩
  · exact Entry.Same.refl e

theorem mapRef_resolve (env : Env) (faultType : Nat) (h : e.mapRef = none) :
    (e.resolve env faultType).mapRef = none := by
  unfold Entry.resolve
  repeat' split
  all_goals first | rfl | exact h

theorem touch_modify (m : Map) (q : Ref) {f : Entry → Entry} (hf : ∀ e : Entry, e.Same (f e)) :
    List.Forall₂ Entry.Same m.entries (m.modify q f).entries := by
  rw [Map.modify, List.forall₂_map_right_iff, List.forall₂_same]
  intro e _
  split
  · exact hf e
  · exact Entry.Same.refl e

theorem kept_modify (h : Kept others v w) (q : Ref) {f : Entry → Entry} (hf : ∀ e : Entry, e.Same (f e)) :
    Kept others v { w with map := w.map.modify q f } :=
  kept_touch h (touch_modify w.map q hf)

theorem SharesOk.fault {ws : List Window} {sh : Shares} (h : SharesOk ws sh) {s : Nat} {m : Map}
    (hm : sh.get s = some m) (env : Env) (faultType a : Nat) :
    SharesOk ws (sh.set s (some (if (vmMapLookupEntry m a).1 then
      (vmMapLookupEntry m a).2.2.modify (vmMapLookupEntry m a).2.1 (·.resolve env faultType)
      else (vmMapLookupEntry m a).2.2))) := by
  obtain ⟨-, hok, -⟩ := h.share s m hm
  have hl := (lookup_spec hok.linked a).same
  have hlook := hok.lookup a
  split
  · have ht := touch_modify (vmMapLookupEntry m a).2.2 (vmMapLookupEntry m a).2.1 (same_resolve env faultType)
    refine h.update hm (hlook.touch (ht.imp fun _ _ hs => hs.toSamePlace) fun e he => ?_) ?_ ?_ ?_
    · obtain ⟨x, hx, rfl⟩ := List.mem_map.1 he
      split
      · exact mapRef_resolve env faultType (hlook.plain x hx)
      · exact hlook.plain x hx
    all_goals rw [Map.modify, hl]
  · exact h.update hm hlook (by rw [hl]) (by rw [hl]) (by rw [hl])

theorem kept_fault (env : Env) (h : Kept others v w) (fault : Nat × Nat) : Kept others v (vmMapLookup env w fault) := by
  obtain ⟨vaddr, faultType⟩ := fault
  unfold vmMapLookup
  simp only
  generalize hp : (if ((w.map.entry w.map.hint).any fun e => decide (e.start ≤ vaddr) && decide (vaddr < e.end_)) = true
    then (true, w.map.hint, w.map) else vmMapLookupEntry w.map vaddr) = p
  have hg : Kept others v { w with map := p.2.2 } := by
    rw [← hp]
    split
    · exact h
    · exact kept_lookup h vaddr
  split
  · exact hg
  · rename_i e _
    split
    · exact hg
    · split
      · split
        · exact hg
        · rename_i m hm
          exact hg.step (hg.good.withShares _ fun ws hws => hws.fault hm env _ _) (keeps_same rfl rfl rfl)
      · exact kept_modify hg _ (same_resolve env _)

theorem kept_unwire (h : Kept others v w) (start end_ : Nat) : Kept others v (unwire w start end_).2 := by
  unfold unwire
  simp only
  have hl := lookup_spec h.good.linked (rangeCheck w.map start end_).1
  have hg := kept_lookup h (rangeCheck w.map start end_).1
  split
  · rename_i hfound
    have hloc := hl.locates
    rw [hfound] at hloc
    obtain ⟨b, e, r, hat, hm, hgood, -⟩ := kept_clipStartAt hg (by rw [hl.same]; exact hloc)
    rw [hat]
    split
    · exact kept_sweepFrom (touches_place (f := fun e => { e with wiredCount := e.wiredCount - 1 }) fun _ =>
        ⟨⟨rfl, rfl, rfl⟩, rfl, rfl⟩) _ hgood hm
    · exact hgood
  · exact hg

theorem touch_undoWired (start : Nat) (es : List Entry) : List.Forall₂ Entry.Same es (undoWired start es) := by
  induction es with
  | nil => exact .nil
  | cons e es ih =>
    rw [undoWired]
    split
    · exact .cons ⟨⟨rfl, rfl, rfl⟩, rfl, rfl⟩ ih
    · exact List.forall₂_same.2 fun e _ => Entry.Same.refl e

/-- Pass 1 of wiring a range that is not empty. -/
theorem kept_wireEntries (env : Env) (hlt : start < end_) (rest : List Entry) :
    ∀ (behind : List Entry) (w : Space), Kept others v (w.withEntries (behind.reverse ++ rest)) →
      (∀ e ∈ rest, start < e.end_) →
      Kept others v ((wireEntries env start end_ behind rest w).2.2.withEntries
        (wireEntries env start end_ behind rest w).2.1) := by
  induction rest with
  | nil => intro behind w h _; simpa [wireEntries] using h
  | cons e rest ih =>
    intro behind w h hin
    rw [wireEntries]
    split
    · rename_i hend
      have hs : e.Same (if e.wiredCount = 0 then e.resolve env e.protection else e) := by
        split
        · exact same_resolve env _ e
        · exact Entry.Same.refl e
      have h1 := kept_touchAt h hs
      simp only
      generalize (if e.wiredCount = 0 then e.resolve env e.protection else e) = e1 at h1 hs ⊢
      have h2 := kept_clipStart h1 (by rw [hs.end_]; exact hin e (by simp))
      have hstart : (clipStart w e1 start).2.1.start < end_ := by
        unfold clipStart
        split
        · exact hlt
        · show e1.start < end_
          rw [hs.start]
          exact hend
      have h3 := kept_clipEnd h2 hstart
      have hup : ∀ x : Entry, x.Same { x with wiredCount := x.wiredCount + 1 } := fun x =>
        ⟨⟨rfl, rfl, rfl⟩, rfl, rfl⟩
      split
      · rename_i e2 w2 heq
        rw [heq] at h3
        have h4 := kept_touchAt h3 (hup e2)
        split
        · refine kept_touch h4 ?_
          have ht := touch_undoWired start
            ({ e2 with wiredCount := e2.wiredCount + 1 } :: ((clipStart w e1 start).1.reverse ++ behind))
          have hrefl : List.Forall₂ Entry.Same rest rest := List.forall₂_same.2 fun e _ => Entry.Same.refl e
          simpa using List.rel_append (List.rel_reverse ht) hrefl
        · refine ih _ _ (by simpa using h4) fun x hx => hin x (by simp [hx])
      · rename_i e2 back w2 _ heq
        rw [heq] at h3
        simpa using kept_touchAt h3 (hup e2)
    · exact h

theorem kept_wireFaults (env : Env) (end_ : Nat) (rest : List Entry) :
    ∀ (failed : Option (Nat × Kern)) (w : Space), Kept others v w →
      Kept others v (wireFaults env end_ rest failed w).2 := by
  have hfaults : ∀ (l : List (Nat × Nat)) (w : Space), Kept others v w → Kept others v (l.foldl (vmMapLookup env) w) := by
    intro l
    induction l with
    | nil => intro w h; exact h
    | cons f l ih => intro w h; exact ih _ (kept_fault env h f)
  have hdown : ∀ x : Entry, x.Same { x with wiredCount := x.wiredCount - 1 } := fun x => ⟨⟨rfl, rfl, rfl⟩, rfl, rfl⟩
  induction rest with
  | nil => intro failed w h; exact h
  | cons e rest ih =>
    intro failed w h
    rw [wireFaults]
    simp only
    split
    · split
      · exact ih _ _ (kept_modify h _ hdown)
      · split
        · have hf := hfaults (env.faultWire e.start e.end_).1 w h
          split
          · exact ih _ _ (kept_modify hf _ hdown)
          · exact ih _ _ hf
        · exact ih _ _ h
    · exact h

/-- An empty range strictly inside an entry. -/
def EmptyInside (m : Map) (start end_ : Nat) : Prop :=
  start = end_ ∧ ∃ e ∈ m.entries, e.start < start ∧ start < e.end_

theorem rangeCheck_le (m : Map) (start end_ : Nat) : (rangeCheck m start end_).1 ≤ (rangeCheck m start end_).2 := by
  unfold rangeCheck
  simp only
  generalize (if start < m.minOffset then m.minOffset else start) = s
  generalize (if end_ > m.maxOffset then m.maxOffset else end_) = t
  split <;> omega

theorem kept_wire (env : Env) (h : Kept others v w) (start end_ : Nat)
    (hok : ¬EmptyInside w.map (rangeCheck w.map start end_).1 (rangeCheck w.map start end_).2) :
    Kept others v (wire env w start end_).2 := by
  have hle := rangeCheck_le w.map start end_
  unfold wire
  simp only
  generalize rangeCheck w.map start end_ = range at hok hle ⊢
  obtain ⟨start, end_⟩ := range
  simp only at hok hle ⊢
  have hl := lookup_spec h.good.linked start
  have hg := kept_lookup h start
  split
  · rename_i hfound
    have hloc := hl.locates
    rw [hfound] at hloc
    obtain ⟨b, e, r, hm, href, hlo, hhi⟩ := hloc.entry
    have hm' : (vmMapLookupEntry w.map start).2.2.entries = b ++ e :: r := by rw [hl.same]; exact hm
    rw [href, at_middle hm' hg.good.linked.nodup]
    have hg' : Kept others v (Space.withEntries { w with map := (vmMapLookupEntry w.map start).2.2 }
        (b.reverse.reverse ++ e :: r)) := by
      rw [List.reverse_reverse, ← hm']
      exact hg
    have hwire : Kept others v
        ((wireEntries env start end_ b.reverse (e :: r) { w with map := (vmMapLookupEntry w.map start).2.2 }).2.2.withEntries
          (wireEntries env start end_ b.reverse (e :: r) { w with map := (vmMapLookupEntry w.map start).2.2 }).2.1) := by
      by_cases hlt : start < end_
      · refine kept_wireEntries env hlt _ _ _ hg' fun x hx => ?_
        rcases List.mem_cons.1 hx with rfl | hx
        · exact hhi
        · have hp := (List.pairwise_append.1 (hm ▸ h.good.linked.ordered).pairwise).2.1
          have hx1 := ((List.pairwise_cons.1 hp).1 x hx).2
          have hx2 := h.good.linked.ordered.mem (show x ∈ w.map.entries by rw [hm]; simp [hx])
          omega
      · have hstart : ¬e.start < end_ := fun hes =>
          hok ⟨by omega, e, by rw [hm]; simp, by omega, hhi⟩
        rw [wireEntries, if_neg hstart]
        exact hg'
    split
    · rename_i heq
      rw [heq] at hwire
      exact hwire
    · rename_i es w1 heq
      rw [heq] at hwire
      have hf := kept_wireFaults env end_ ((w1.withEntries es).map.at_ (some e.id)).2 none _ hwire
      split
      · rename_i heq2
        rw [heq2] at hf
        exact hf
      · rename_i heq2
        rw [heq2] at hf
        exact kept_unwire hf _ _
  · exact hg

end Wire

/-! ## Deleting -/

section Delete
variable {others : List Window} {w : Space} {b r : List Entry} {e : Entry} {start end_ : Nat}

theorem ne_of_live {q : Ref} (hq : Live b q) (hn : (ids (b ++ e :: r)).Nodup) : q ≠ some e.id := fun he =>
  not_mem_before hn (hq e.id he)

theorem good_entryDelete (h : Good others (w.withEntries (b ++ e :: r))) (hh : Live b w.map.hint)
    (hf : Live b w.map.firstFree) : Good others ((entryDelete e w).2.withEntries (b ++ r)) := by
  have hn := h.linked.nodup
  have hl : Linked { (w.withEntries (b ++ e :: r)).map with nentries := w.map.nentries - 1, entries := b ++ r } :=
    linked_unlink h.linked rfl (ne_of_live hh hn) (ne_of_live hf hn)
  refine ⟨{ hl with }, ?_, fun x hx => ?_, ?_⟩
  · have hs : w.map.size = total (b ++ e :: r) := h.size
    show w.map.size - (e.end_ - e.start) = total (b ++ r)
    rw [hs]
    simp only [total_append, total_cons]
    omega
  · refine h.noSub x ?_
    rcases List.mem_append.1 hx with hx | hx <;> simp [hx]
  · have hsh := h.shares.perm (windows_middle b r e others)
    have hsub := h.noSub e (by simp)
    simp only [entryDelete, withEntries_shares, withEntries_entries]
    cases ho : e.object with
    | vmObject o => simpa [Entry.window, Entry.mapRef, ho] using hsh
    | subMap s => simp [Entry.isSubMap, ho] at hsub
    | shareMap s =>
      simp only [Entry.window, ho, Option.toList_some, List.cons_append, List.nil_append, withEntries_shares] at hsh
      simpa [Entry.mapRef, ho] using hsh.deallocate

theorem good_sweepDelete (r : List Entry) : ∀ w : Space, Good others (w.withEntries (b ++ r)) →
    Live b w.map.hint → Live b w.map.firstFree →
      Good others ((sweep end_ entryDelete r w).2.withEntries (b ++ (sweep end_ entryDelete r w).1)) := by
  have hclip : ∀ (w : Space) (e : Entry), (clipEnd w e end_).2.2.map.hint = w.map.hint ∧
      (clipEnd w e end_).2.2.map.firstFree = w.map.firstFree := fun w e => by
    unfold clipEnd
    split <;> exact ⟨rfl, rfl⟩
  induction r with
  | nil => intro w h _ _; exact h
  | cons e r ih =>
    intro w h hh hf
    rw [sweep]
    split
    · rename_i hlt
      have hgood := (kept_clipEnd (.refl h) hlt).good
      have hsame := hclip w e
      split
      · rename_i e1 w1 heq
        rw [heq] at hgood hsame
        have hh1 : Live b w1.map.hint := hsame.1.symm ▸ hh
        have hf1 : Live b w1.map.firstFree := hsame.2.symm ▸ hf
        exact ih _ (good_entryDelete hgood hh1 hf1) hh1 hf1
      · rename_i e1 behind w1 _ heq
        rw [heq] at hgood hsame
        have hh1 : Live b w1.map.hint := hsame.1.symm ▸ hh
        have hf1 : Live b w1.map.firstFree := hsame.2.symm ▸ hf
        exact good_entryDelete hgood hh1 hf1
    · exact h

theorem live_firstFree {m : Map} (h : Linked m) (hm : m.entries = b ++ r) (hr : ∀ x ∈ r, start ≤ x.start) :
    m.start m.firstFree ≥ start ∨ Live b m.firstFree := by
  cases hf : m.firstFree with
  | none => exact .inr (live_none b)
  | some i =>
    obtain ⟨x, hx, rfl⟩ := List.mem_map.1 (h.firstFree i hf)
    rw [hm] at hx
    rcases List.mem_append.1 hx with hx | hx
    · exact .inr (live_some hx)
    · obtain ⟨r1, r2, rfl⟩ := List.append_of_mem hx
      refine .inl ?_
      rw [start_middle (b := b ++ r1) (r := r2) (by simpa using hm) h.nodup]
      exact hr x hx

theorem good_deleteFrom (start : Nat) (h : Good others w) (hm : w.map.entries = b ++ r) (hr : ∀ x ∈ r, start ≤ x.start)
    (hh : Live b w.map.hint) (v : Space)
    (hv : v = if w.map.start w.map.firstFree ≥ start then { w with map := { w.map with firstFree := lastRef b } } else w) :
    Good others ((sweep end_ entryDelete r v).2.withEntries (b ++ (sweep end_ entryDelete r v).1)) := by
  have hlive : Live b (lastRef b) := by simpa using live_lastRef b []
  split at hv
  · subst hv
    refine good_sweepDelete r _ ?_ hh hlive
    rw [← hm]
    exact h.withFirstFree (hm ▸ live_lastRef b r)
  · rename_i hlt
    subst hv
    refine good_sweepDelete r _ (by rw [← hm, withEntries_self]; exact h) hh ?_
    exact (live_firstFree h.linked hm hr).resolve_left hlt

theorem good_delete (h : Good others w) (start end_ : Nat) : Good others (vmMapDelete w start end_) := by
  have hl := lookup_spec h.linked start
  have hg := good_lookup h start
  have hloc : Locates (vmMapLookupEntry w.map start).2.2.entries start (vmMapLookupEntry w.map start).1
      (vmMapLookupEntry w.map start).2.1 := by
    rw [hl.same]
    exact hl.locates
  have hmiss := hl.missed
  unfold vmMapDelete
  generalize vmMapLookupEntry w.map start = found at hg hloc hmiss ⊢
  obtain ⟨found, entry, m⟩ := found
  cases found with
  | true =>
    obtain ⟨b, e, r, hat, hm, ⟨hgood, -⟩, hb, hstart, -⟩ := kept_clipStartAt (.refl hg) hloc
    simp only [if_true, hat]
    have hord := (List.pairwise_append.1 (hm ▸ hgood.linked.ordered).pairwise).2.1
    have hhint := hgood.withHint (q := lastRef b) (hm ▸ live_lastRef b (e :: r))
    refine good_deleteFrom start hhint hm (fun x hx => ?_) (by simpa using live_lastRef b []) _ rfl
    rcases List.mem_cons.1 hx with rfl | hx
    · exact hstart
    · have := ((List.pairwise_cons.1 hord).1 x hx).1
      omega
  | false =>
    obtain ⟨b, r, hat, hm, href, hb, hr⟩ := good_after hg hloc
    simp only [Bool.false_eq_true, if_false, hat]
    refine good_deleteFrom start hg hm (fun x hx => Nat.le_of_lt (hr x hx)) ?_ _ rfl
    rw [hmiss rfl, href]
    simpa using live_lastRef b []

theorem good_remove (h : Good others w) (start end_ : Nat) : Good others (vmMapRemove w start end_) :=
  good_delete h _ _

end Delete

/-! ## Inserting and simplifying -/

section Insert
variable {others : List Window} {m : Map} {sh : Shares}

theorem window_plain (h : e.isAMap = false) : e.window = none := by
  unfold Entry.isAMap at h
  unfold Entry.window
  split <;> simp_all

theorem windows_plain (b r : List Entry) (h : e.window = none) : windows (b ++ e :: r) = windows (b ++ r) := by
  simp [windows, h]

/-- What `extends_` says of the entry that is extended. -/
theorem extends_spec {env : Env} {object : Option Nat} (h : extends_ env m object start end_ e = true) :
    e.end_ = start ∧ e.isAMap = false ∧ e.isSubMap = false := by
  simp only [extends_, Bool.and_eq_true, beq_iff_eq, Bool.not_eq_true'] at h
  tauto

theorem noSub_middle (h : ∀ y ∈ b ++ r, y.isSubMap = false) (he : e.isSubMap = false) (hx : x ∈ b ++ e :: r) :
    x.isSubMap = false := by
  simp only [List.mem_append, List.mem_cons] at h hx
  rcases hx with hx | rfl | hx
  · exact h x (.inl hx)
  · exact he
  · exact h x (.inr hx)

theorem good_extend (h : Good others ⟨m, sh⟩) (hm : m.entries = b ++ e :: r) (hlt : e.start < end_)
    (hmax : end_ ≤ m.maxOffset) (hr : ∀ x ∈ r.head?, end_ ≤ x.start) (hmap : e.isAMap = false) :
    Good others ⟨{ m with size := m.size + (end_ - e.end_), entries := b ++ { e with end_ } :: r }, sh⟩ := by
  have hwin : ({ e with end_ } : Entry).window = none := window_plain hmap
  refine ⟨{ linked_extend h.linked hm end_ hlt hmax hr with }, ?_, fun x hx => ?_, ?_⟩
  · have hs : m.size = total m.entries := h.size
    simp only [hs, hm, total_append, total_cons]
    omega
  · have hsub : ({ e with end_ } : Entry).isSubMap = false := h.noSub e (by simp [hm])
    refine noSub_middle (fun y hy => h.noSub y ?_) hsub hx
    rw [hm]
    rcases List.mem_append.1 hy with hy | hy <;> simp [hy]
  · have hsh : SharesOk (windows m.entries ++ others) sh := h.shares
    rw [hm, windows_plain b r (window_plain hmap)] at hsh
    show SharesOk (windows (b ++ _ :: r) ++ others) sh
    rw [windows_plain b r hwin]
    exact hsh

theorem good_link {o : Option Nat} (h : Good others ⟨m, sh⟩) (hm : m.entries = b ++ r) (hid : e.id = m.nextId)
    (hlt : e.start < e.end_) (hmin : m.minOffset ≤ e.start) (hmax : e.end_ ≤ m.maxOffset)
    (hb : ∀ x ∈ b, x.end_ ≤ e.start) (hr : ∀ x ∈ r.head?, e.end_ ≤ x.start) (ho : e.object = .vmObject o) :
    Good others ⟨{ m.linked with entries := b ++ e :: r, size := m.size + (e.end_ - e.start) }, sh⟩ := by
  have hwin : e.window = none := by simp [Entry.window, ho]
  refine ⟨{ linked_insert h.linked hm hid hlt hmin hmax hb hr with }, ?_, fun x hx => ?_, ?_⟩
  · have hs : m.size = total m.entries := h.size
    simp only [hs, hm, total_append, total_cons]
    omega
  · exact noSub_middle (fun y hy => h.noSub y (hm ▸ hy)) (by simp [Entry.isSubMap, ho]) hx
  · show SharesOk (windows (b ++ e :: r) ++ others) sh
    rw [windows_plain b r hwin, ← hm]
    exact h.shares

theorem newEntry_spec (env : Env) (m : Map) (object : Option Nat) (offset start end_ : Nat) :
    (newEntry env m object offset start end_).id = m.nextId ∧ (newEntry env m object offset start end_).start = start ∧
      (newEntry env m object offset start end_).end_ = end_ ∧
      (newEntry env m object offset start end_).object = .vmObject object := by
  unfold newEntry
  split <;> exact ⟨rfl, rfl, rfl, rfl⟩

theorem good_insert (env : Env) (h : Good others ⟨m, sh⟩) (object : Option Nat) (offset start end_ : Nat) :
    Good others ⟨(vmMapInsert env m object offset start end_).2, sh⟩ := by
  unfold vmMapInsert
  split
  · exact h
  · rename_i hrange
    have hl := lookup_spec h.linked start
    have hg := good_lookup h start
    have hloc : Locates (vmMapLookupEntry m start).2.2.entries start (vmMapLookupEntry m start).1
        (vmMapLookupEntry m start).2.1 := by
      rw [hl.same]
      exact hl.locates
    have hsame := hl.same
    generalize vmMapLookupEntry m start = found at hg hloc hsame ⊢
    obtain ⟨found, prev, n⟩ := found
    simp only at hg hloc hsame ⊢
    have hmin : n.minOffset = m.minOffset := by rw [hsame]
    have hmax : n.maxOffset = m.maxOffset := by rw [hsame]
    cases found with
    | true => exact hg
    | false =>
      obtain ⟨b, r, hat, hm, href, hb, hr⟩ := good_after hg hloc
      simp only at hat hm
      simp only [Bool.false_eq_true, if_false, hat]
      split
      · exact hg
      · rename_i hnext
        have hgap : ∀ x ∈ r.head?, end_ ≤ x.start := fun x hx => by
          simp only [Option.any_eq_true, not_exists, not_and, decide_eq_true_eq] at hnext
          exact Nat.not_lt.1 (hnext x hx)
        split
        · rename_i e heq
          obtain ⟨hlast, hext⟩ := Option.filter_eq_some_iff.1 heq
          obtain ⟨hend, hmap, -⟩ := extends_spec hext
          obtain ⟨b, rfl⟩ : ∃ b', b = b' ++ [e] := List.getLast?_eq_some_iff.1 hlast
          have hm' : n.entries = b ++ e :: r := by simpa using hm
          have hlt := (hg.linked.ordered.mem (show e ∈ n.entries by rw [hm']; simp)).2.1
          rw [List.dropLast_concat]
          exact good_extend hg hm' (by omega) (by omega) hgap hmap
        · obtain ⟨hid, hst, hen, hob⟩ := newEntry_spec env n object offset start end_
          have hgood := good_link hg hm hid (by omega) (by omega) (by omega) (by rw [hst]; exact hb)
            (by rw [hen]; exact hgap) hob
          rw [hst, hen] at hgood
          split
          · exact hgood.withFirstFree (live_some (by simp))
          · exact hgood

theorem findspaceLoop_live (maxOffset length : Nat) (r : List Entry) :
    ∀ (b : List Entry) (start : Nat) (entry : Ref) (res : Nat × Ref), Live b entry →
      findspaceLoop maxOffset length start entry r = some res → Live (b ++ r) res.2 := by
  induction r with
  | nil =>
    intro b start entry res hb h
    rw [findspaceLoop] at h
    split at h
    · cases h
    · cases h
      simpa using hb
  | cons x r ih =>
    intro b start entry res hb h
    rw [findspaceLoop] at h
    split at h
    · cases h
    · split at h
      · cases h
        intro i hi
        rw [ids_append]
        exact List.mem_append_left _ (hb i hi)
      · have := ih (b ++ [x]) _ _ res (live_some (by simp)) h
        simpa using this

theorem good_findspace (h : Good others ⟨m, sh⟩) (start length : Nat) :
    Good others ⟨(vmMapFindspace m start length).2, sh⟩ := by
  unfold vmMapFindspace
  simp only
  generalize (if start < m.minOffset then m.minOffset else start) = s
  split
  · exact h
  · -- Wherever the search begins, it is at the header or an entry.
    generalize hp : (if s = m.minOffset then (if m.firstFree ≠ none then m.end_ m.firstFree else s, m.firstFree, m)
      else (if (vmMapLookupEntry m s).1 = true then (vmMapLookupEntry m s).2.2.end_ (vmMapLookupEntry m s).2.1 else s,
        (vmMapLookupEntry m s).2.1, (vmMapLookupEntry m s).2.2)) = p
    have hfrom : Good others ⟨p.2.2, sh⟩ ∧ Live p.2.2.entries p.2.1 := by
      rw [← hp]
      split
      · exact ⟨h, h.linked.firstFree⟩
      · have hl := lookup_spec h.linked s
        refine ⟨good_lookup h s, ?_⟩
        obtain ⟨b, r, hm, href, -⟩ := hl.locates
        simp only at hm href ⊢
        rw [hl.same, href]
        exact hm ▸ live_lastRef b r
    obtain ⟨s', q, n⟩ := p
    obtain ⟨hn, hq⟩ := hfrom
    simp only at hn hq ⊢
    split
    · exact hn
    · rename_i s1 q1 heq
      refine Good.withHint hn ?_
      show Live n.entries q1
      cases q with
      | none => exact findspaceLoop_live _ _ _ [] _ _ _ (live_none []) heq
      | some i =>
        obtain ⟨b, e, r, hm, rfl⟩ := hq.split
        rw [after_middle hm hn.linked.nodup] at heq
        have := findspaceLoop_live _ _ _ (b ++ [e]) _ _ _ (live_some (by simp)) heq
        rw [hm]
        simpa using this

theorem good_find (env : Env) (h : Good others ⟨m, sh⟩) (object : Option Nat) (offset addr length : Nat)
    (findSpace : Bool) : Good others ⟨(vmMapFind env m object offset addr length findSpace).2.2, sh⟩ := by
  unfold vmMapFind
  split
  · have hf := good_findspace h addr length
    split
    · rename_i heq
      rw [heq] at hf
      exact hf
    · rename_i heq
      rw [heq] at hf
      exact good_insert env hf _ _ _ _
  · exact good_insert env h _ _ _ _

theorem mergeable_spec (h : mergeable m start x e = true) :
    x.end_ = start ∧ x.isAMap = false ∧ x.isSubMap = false ∧ e.isAMap = false := by
  simp only [mergeable, Bool.and_eq_true, beq_iff_eq, Bool.not_eq_true'] at h
  tauto

/-- The entry `e` is merged into the entry `x` before it. -/
theorem good_merge (h : Good others ⟨m, sh⟩) (hm : m.entries = b ++ x :: e :: r) (hend : e.start ≤ x.end_)
    (hx : x.isAMap = false) (he : e.isAMap = false) :
    Good others ⟨{ m with
      firstFree := if m.firstFree = some e.id then some x.id else m.firstFree
      hint := some x.id
      nentries := m.nentries - 1
      entries := b ++ { x with end_ := e.end_ } :: r }, sh⟩ := by
  have hm' : m.entries = (b ++ [x]) ++ e :: r := by simpa using hm
  obtain ⟨hob, h1, h2, h3, h4, h5, h6, hor⟩ := (ordered_append b (x :: e :: r) _).1 (hm ▸ h.linked.ordered)
  have hne : x.id ≠ e.id := fun heq => not_mem_before (hm' ▸ h.linked.nodup) (by simp [← heq])
  have hfirst : Live m.entries (if m.firstFree = some e.id then some x.id else m.firstFree) := by
    split
    · exact live_some (by simp [hm])
    · exact h.linked.firstFree
  have hlink := linked_unlink ((h.linked.withHint (r := some x.id) (live_some (by simp [hm]))).withFirstFree hfirst) hm'
    (by simpa using hne) (by simp only; split <;> simp_all)
  have hgrow := linked_extend (b := b) (e := x) (r := r) hlink (by simp) e.end_ (by omega) h6 fun y hy => ?_
  · refine ⟨{ hgrow with }, ?_, fun y hy => ?_, ?_⟩
    · have hs : m.size = total m.entries := h.size
      simp only [hs, hm, total_append, total_cons]
      omega
    · have hsub : ({ x with end_ := e.end_ } : Entry).isSubMap = false := h.noSub x (by simp [hm])
      refine noSub_middle (fun z hz => h.noSub z ?_) hsub hy
      rw [hm]
      rcases List.mem_append.1 hz with hz | hz <;> simp [hz]
    · have hwin : ({ x with end_ := e.end_ } : Entry).window = none := window_plain hx
      have hsh : SharesOk (windows m.entries ++ others) sh := h.shares
      rw [hm', windows_plain _ r (window_plain he), List.append_assoc, List.singleton_append,
        windows_plain b r (window_plain hx)] at hsh
      show SharesOk (windows (b ++ _ :: r) ++ others) sh
      rw [windows_plain b r hwin]
      exact hsh
  · exact (hor.mem (List.mem_of_head? hy)).1

theorem good_simplify (h : Good others ⟨m, sh⟩) (start : Nat) : Good others ⟨vmMapSimplify m start, sh⟩ := by
  have hl := lookup_spec h.linked start
  have hg := good_lookup h start
  have hloc : Locates (vmMapLookupEntry m start).2.2.entries start (vmMapLookupEntry m start).1
      (vmMapLookupEntry m start).2.1 := by
    rw [hl.same]
    exact hl.locates
  unfold vmMapSimplify
  generalize vmMapLookupEntry m start = found at hg hloc ⊢
  obtain ⟨found, entry, n⟩ := found
  simp only at hg hloc ⊢
  split
  · rename_i x e r hlast hrest
    split
    · rename_i hmerge
      obtain ⟨b, e', r', hm, rfl, hlo, hhi⟩ := hloc.entry
      rw [at_middle hm hg.linked.nodup] at hlast hrest ⊢
      cases hrest
      obtain ⟨b, rfl⟩ : ∃ b', b = b' ++ [x] := List.getLast?_eq_some_iff.1 hlast
      obtain ⟨hend, hxm, -, hem⟩ := mergeable_spec hmerge
      rw [List.dropLast_concat]
      exact good_merge hg (by simpa using hm) (by omega) hxm hem
    · exact hg
  · exact hg

end Insert

end BsdKernel.VmMap
