import BsdKernel.Vm.MapOps
/-!
# What the addresses of a map see

`seen es a` is the entry that maps the address `a`. Clipping changes which entry that is but
nothing that is said of the address (`Attribute`): this is shown for a split, for the walk to
the first entry of a range, and for a sweep over the range.
-/

namespace BsdKernel.VmMap

variable {β : Type}

/-- The entry that maps `a`. -/
def seen (es : List Entry) (a : Nat) : Option Entry := es.find? fun e => e.start ≤ a && a < e.end_

/-- What an entry says of all its addresses alike: nothing about its place, its offset or its name. -/
def Attribute (f : Entry → β) : Prop :=
  ∀ (e : Entry) (i s t o : Nat), f { e with id := i, start := s, end_ := t, offset := o } = f e

section Seen
variable {b r es : List Entry} {e x y : Entry} {a lo hi : Nat} {f : Entry → β}

theorem seen_append (b r : List Entry) (a : Nat) : seen (b ++ r) a = (seen b a).or (seen r a) := List.find?_append

theorem seen_cons_in (h : e.start ≤ a ∧ a < e.end_) : seen (e :: es) a = some e :=
  List.find?_cons_of_pos (by simpa using h)

theorem seen_cons_out (h : a < e.start ∨ e.end_ ≤ a) : seen (e :: es) a = seen es a :=
  List.find?_cons_of_neg (by simp only [Bool.and_eq_true, decide_eq_true_eq]; omega)

theorem seen_none (h : ∀ e ∈ es, a < e.start ∨ e.end_ ≤ a) : seen es a = none := by
  refine List.find?_eq_none.2 fun e he => ?_
  have := h e he
  simp only [Bool.and_eq_true, decide_eq_true_eq]
  omega

theorem mem_of_seen (h : seen es a = some e) : e ∈ es ∧ e.start ≤ a ∧ a < e.end_ := by
  refine ⟨List.mem_of_find?_eq_some h, ?_⟩
  simpa using List.find?_some h

theorem seen_prefix (h : ∀ c, (seen es c).map f = (seen r c).map f) (b : List Entry) (a : Nat) :
    (seen (b ++ es) a).map f = (seen (b ++ r) a).map f := by
  rw [seen_append, seen_append]
  cases seen b a with
  | none => exact h a
  | some e => rfl

theorem seen_split (hst : x.start = e.start) (hmid : y.start = x.end_) (hend : y.end_ = e.end_) (hx : f x = f e) (hy : f y = f e)
    (hlo : e.start ≤ x.end_) (hhi : x.end_ ≤ e.end_) (a : Nat) : (seen (x :: y :: r) a).map f = (seen (e :: r) a).map f := by
  by_cases hin : e.start ≤ a ∧ a < e.end_
  · rw [seen_cons_in hin]
    by_cases hl : a < x.end_
    · rw [seen_cons_in ⟨by omega, hl⟩]
      exact congrArg some hx
    · rw [seen_cons_out (.inr (by omega)), seen_cons_in ⟨by omega, by omega⟩]
      exact congrArg some hy
  · rw [seen_cons_out (e := x) (by omega), seen_cons_out (e := y) (by omega), seen_cons_out (e := e) (by omega)]

end Seen

/-! ## Clipping -/

section Clip
variable {b r : List Entry} {e : Entry} {w : Space} {a : Nat} {f : Entry → β} (hf : Attribute f)
include hf

theorem seen_clipStart (ha : a < e.end_) (c : Nat) :
    (seen ((clipStart w e a).1 ++ (clipStart w e a).2.1 :: r) c).map f = (seen (e :: r) c).map f := by
  unfold clipStart
  split
  · rename_i hlo
    exact seen_split (x := { e.clipFront a with id := w.map.nextId }) (y := e.clipBack a) (e := e) rfl rfl rfl
      (hf e _ _ _ _) (hf e _ _ _ _) (Nat.le_of_lt hlo) (Nat.le_of_lt ha) c
  · rfl

theorem attr_clipStart (w : Space) (e : Entry) (a : Nat) : f (clipStart w e a).2.1 = f e := by
  unfold clipStart
  split
  · exact hf e _ _ _ _
  · rfl

theorem attr_clipEnd (w : Space) (e : Entry) (a : Nat) : f (clipEnd w e a).1 = f e := by
  unfold clipEnd
  split
  · exact hf e _ _ _ _
  · rfl

end Clip

theorem linked_clip {w : Space} {b r : List Entry} {e : Entry} {a i j : Nat} (h : Linked (w.withEntries (b ++ e :: r)).map)
    (hlo : e.start < a) (hhi : a < e.end_) (hij : i = w.map.nextId ∧ j = e.id ∨ i = e.id ∧ j = w.map.nextId) :
    Linked ((w.cloned e).withEntries (b ++ { e.clipFront a with id := i } :: { e.clipBack a with id := j } :: r)).map := by
  have hl : Linked { (w.withEntries (b ++ e :: r)).map.linked with
      entries := b ++ { e.clipFront a with id := i } :: { e.clipBack a with id := j } :: r } :=
    linked_split h rfl ⟨rfl, rfl, rfl, hlo, hhi, hij⟩
  exact hl

theorem linked_clipStart {w : Space} {b r : List Entry} {e : Entry} {a : Nat} (h : Linked (w.withEntries (b ++ e :: r)).map)
    (ha : a < e.end_) : Linked ((clipStart w e a).2.2.withEntries (b ++ ((clipStart w e a).1 ++ (clipStart w e a).2.1 :: r))).map := by
  unfold clipStart
  split
  · rename_i hlo
    exact linked_clip h hlo ha (.inl ⟨rfl, rfl⟩)
  · exact h

/-! ## The walk to a range -/

/-- The entries of a list that have addresses in a range. -/
def meeting (es : List Entry) (start end_ : Nat) : List Entry :=
  es.filter fun e => max e.start start < min e.end_ end_

/-- What `enter` leaves: the entries before `start` and those from there on, clipped there. -/
structure Entered (w : Space) (start : Nat) (before rest : List Entry) (w' : Space) : Prop where
  linked : Linked (w'.withEntries (before ++ rest)).map
  entries : w'.map.entries = before ++ rest
  same : w'.map.minOffset = w.map.minOffset ∧ w'.map.maxOffset = w.map.maxOffset
  below : ∀ x ∈ before, x.end_ ≤ start
  above : ∀ x ∈ rest, start ≤ x.start
  seen : ∀ {β : Type} (f : Entry → β), Attribute f → ∀ c, (seen (before ++ rest) c).map f = (seen w.map.entries c).map f
  meeting : ∀ {β : Type} (f : Entry → β), Attribute f → ∀ end_,
    (rest.filter fun e => e.start < end_).map f = (meeting w.map.entries start end_).map f

theorem meeting_append (b r : List Entry) (start end_ : Nat) :
    meeting (b ++ r) start end_ = meeting b start end_ ++ meeting r start end_ := List.filter_append ..

theorem meeting_below {es : List Entry} {start : Nat} (h : ∀ x ∈ es, x.end_ ≤ start) (end_ : Nat) : meeting es start end_ = [] := by
  refine List.filter_eq_nil_iff.2 fun x hx => ?_
  have := h x hx
  simp only [decide_eq_true_eq]
  omega

theorem meeting_above {es : List Entry} {start : Nat} (h : ∀ x ∈ es, start ≤ x.start ∧ x.start < x.end_) (end_ : Nat) :
    meeting es start end_ = es.filter fun e => e.start < end_ := by
  refine List.filter_congr fun x hx => ?_
  have := h x hx
  rw [decide_eq_decide]
  omega

theorem enter_spec {w : Space} (h : Linked w.map) (start : Nat) :
    Entered w start (enter w start).1 (enter w start).2.1 (enter w start).2.2 := by
  have hl := lookup_spec h start
  have hlink : Linked (vmMapLookupEntry w.map start).2.2 := by
    rw [hl.same]
    exact h.withHint hl.live
  have hsame := hl.same
  have hloc := hl.locates
  unfold enter
  generalize vmMapLookupEntry w.map start = p at hlink hsame hloc ⊢
  obtain ⟨found, entry, m⟩ := p
  simp only at hlink hsame hloc ⊢
  have hm : m.entries = w.map.entries := by rw [hsame]
  have hbounds : m.minOffset = w.map.minOffset ∧ m.maxOffset = w.map.maxOffset := by rw [hsame]; exact ⟨rfl, rfl⟩
  rw [← hm] at hloc
  cases found with
  | true =>
    obtain ⟨b, e, r, he, rfl, hlo, hhi⟩ := hloc.entry
    have hat := at_middle he hlink.nodup
    have hord : Ordered m.maxOffset m.minOffset (b ++ e :: r) := he ▸ hlink.ordered
    have hpair := List.pairwise_append.1 hord.pairwise
    have hafter := fun x hx => (List.pairwise_cons.1 hpair.2.1).1 x hx
    have hclip := linked_clipStart (w := { w with map := m }) (b := b) (r := r) (a := start) (e := e)
      (by rw [← he]; exact hlink) hhi
    have hspec := clipStart_spec { w with map := m } e start
    have hmap : (clipStart { w with map := m } e start).2.2.map.minOffset = m.minOffset ∧
        (clipStart { w with map := m } e start).2.2.map.maxOffset = m.maxOffset := by
      unfold clipStart
      split <;> exact ⟨rfl, rfl⟩
    have hwhere : (Space.clipStartAt { w with map := m } (some e.id) start) =
        (clipStart { w with map := m } e start).2.2.withEntries
          ((b ++ (clipStart { w with map := m } e start).1) ++ (clipStart { w with map := m } e start).2.1 :: r) := by
      rw [Space.clipStartAt, hat]
    have hat' := at_middle (m := (Space.clipStartAt { w with map := m } (some e.id) start).map)
      (b := b ++ (clipStart { w with map := m } e start).1) (e := (clipStart { w with map := m } e start).2.1) (r := r)
      (by rw [hwhere]; rfl) (by rw [hwhere, List.append_assoc]; exact hclip.nodup)
    rw [hspec.id] at hat'
    simp only [if_true, hat']
    refine ⟨?_, by rw [hwhere]; rfl, ?_, fun x hx => ?_, fun x hx => ?_, fun f hf c => ?_, fun f hf end_ => ?_⟩
    · rw [hwhere, List.append_assoc]
      exact hclip
    · rw [hwhere]
      exact ⟨hmap.1.trans hbounds.1, hmap.2.trans hbounds.2⟩
    · rcases List.mem_append.1 hx with hx | hx
      · have := (hpair.2.2 x hx e (by simp)).2
        omega
      · exact hspec.front x hx
    · rcases List.mem_cons.1 hx with rfl | hx
      · exact hspec.start
      · have := (hafter x hx).2
        omega
    · rw [List.append_assoc, ← hm, he]
      exact seen_prefix (fun c => seen_clipStart hf hhi c) b c
    · have hbelow : ∀ x ∈ b, x.end_ ≤ start := fun x hx => by
        have := (hpair.2.2 x hx e (by simp)).2
        omega
      have hr : ∀ x ∈ r, start ≤ x.start ∧ x.start < x.end_ := fun x hx => by
        have h₁ := (hafter x hx).2
        have h₂ := (hord.mem (e := x) (by simp [hx])).2.1
        omega
      have hstart : (clipStart { w with map := m } e start).2.1.start = start := by
        unfold clipStart
        split
        · rfl
        · show e.start = start
          omega
      rw [← hm, he, meeting_append, meeting_below hbelow, List.nil_append, List.filter_cons, hstart]
      show _ = List.map f (List.filter _ (e :: r))
      rw [List.filter_cons, ← meeting_above hr]
      have hiff : max e.start start < min e.end_ end_ ↔ start < end_ := by omega
      by_cases hend : start < end_
      · rw [if_pos (by simpa using hend), if_pos (by simpa using hiff.2 hend)]
        simp only [List.map_cons, attr_clipStart hf]
        rfl
      · rw [if_neg (by simpa using hend), if_neg (by simpa using fun hn => hend (hiff.1 hn))]
        rfl
  | false =>
    obtain ⟨b, r, he, rfl, hb, hr⟩ := hloc
    simp only [Bool.false_eq_true, if_false, after_lastRef he hlink.nodup]
    refine ⟨by rw [← he]; exact hlink, he, hbounds, hb, fun x hx => Nat.le_of_lt (hr x hx), fun f _ c => by rw [← he, hm], fun f _ end_ => ?_⟩
    rw [← hm, he, meeting_append, meeting_below hb, meeting_above fun x hx => ⟨Nat.le_of_lt (hr x hx), ?_⟩]
    · rfl
    · exact (hlink.ordered.mem (e := x) (by rw [he]; simp [hx])).2.1

end BsdKernel.VmMap
