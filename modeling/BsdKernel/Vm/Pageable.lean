import BsdKernel.Vm.Wire
import BsdKernel.Vm.Protect
/-!
# A wiring that fails

What is left of a failed wiring is taken back by unwiring the entries in front of
the one whose fault failed (`unwire_spec`). `pageable_wires`: the wired count that
an address sees is raised by one in the range if `vm_map_pageable` succeeds, and
is what it was if it fails.
-/

namespace BsdKernel.VmMap

/-! ## Unwiring -/

section Unwire
variable {start end_ : Nat} {b p r : List Entry} {e : Entry} {w : Space}

/-- The range is wired and has no hole. -/
theorem unwireCheck_true (hp : ∀ x ∈ p, x.wiredCount ≠ 0) (hr : ∀ x ∈ r, end_ ≤ x.start) (hno : NoHole end_ (p ++ r)) :
    unwireCheck end_ (p ++ r) = true := by
  induction p with
  | nil =>
    cases r with
    | nil => rfl
    | cons x r =>
      have := hr x (by simp)
      rw [List.nil_append, unwireCheck, if_neg (by omega)]
  | cons x p ih =>
    obtain ⟨hx, hrest⟩ := hno
    have hc := hp x (by simp)
    rw [List.cons_append, unwireCheck]
    split_ifs with hs hbad
    · exfalso
      obtain ⟨hlt, hall⟩ := hbad.resolve_left hc
      obtain ⟨n, hn, hle⟩ := hx hs hlt
      have hn' : (p ++ r).head? = some n := hn
      rw [hn'] at hall
      simp only [Option.all_some, decide_eq_true_eq] at hall
      omega
    · exact ih (fun y hy => hp y (by simp [hy])) hrest
    · rfl

/-- The sweep lowers the entries of the range, none of which is clipped. -/
theorem sweep_lower (hp : ∀ x ∈ p, x.start < end_ ∧ x.end_ ≤ end_) (hr : ∀ x ∈ r, end_ ≤ x.start) :
    ∀ w : Space, sweep end_ (fun e w => ([{ e with wiredCount := e.wiredCount - 1 }], w)) (p ++ r) w =
      (p.map Entry.lower ++ r, w) := by
  induction p with
  | nil =>
    intro w
    cases r with
    | nil => rfl
    | cons x r =>
      have := hr x (by simp)
      rw [List.nil_append, sweep, if_neg (by omega)]
      rfl
  | cons x p ih =>
    intro w
    obtain ⟨hs, he⟩ := hp x (by simp)
    have hclip : clipEnd w x end_ = (x, [], w) := by
      rw [clipEnd, if_neg (by omega)]
    rw [List.cons_append, sweep, if_pos hs, hclip]
    simp only [ih (fun y hy => hp y (by simp [hy])) w]
    rfl

/-- Unwiring a range that starts where an entry does, and ends where one does. -/
theorem unwire_spec (h : Placed w.map) (hm : w.map.entries = b ++ (p ++ r)) (hhead : ∃ x ∈ (p ++ r).head?, x.start = start ∧ start < x.end_)
    (hp : ∀ x ∈ p, x.start < end_ ∧ x.end_ ≤ end_ ∧ x.wiredCount ≠ 0) (hr : ∀ x ∈ r, end_ ≤ x.start) (hno : NoHole end_ (p ++ r))
    (hmin : w.map.minOffset ≤ start) (hle : start ≤ end_) (hmax : end_ ≤ w.map.maxOffset) :
    (unwire w start end_).2.map.entries = b ++ (p.map Entry.lower ++ r) := by
  obtain ⟨e, hhead, hes, hee⟩ := hhead
  obtain ⟨l, hl⟩ : ∃ l, p ++ r = e :: l := by
    cases hpr : p ++ r with
    | nil => simp [hpr] at hhead
    | cons x l =>
      obtain rfl : x = e := by simpa [hpr] using hhead
      exact ⟨l, rfl⟩
  have hm' : w.map.entries = b ++ e :: l := by rw [hm, hl]
  have hrange : rangeCheck w.map start end_ = (start, end_) := by
    simp only [rangeCheck, if_neg (Nat.not_lt.2 hmin), if_neg (Nat.not_lt.2 hmax), if_neg (Nat.not_lt.2 hle)]
  have hlook := h.lookup start
  obtain ⟨hfound, hentry⟩ := hlook.complete b e l hm' ⟨by omega, hee⟩
  have hmap := hlook.same
  unfold unwire
  rw [hrange]
  simp only
  generalize vmMapLookupEntry w.map start = look at hfound hentry hmap
  obtain ⟨found, entry, map⟩ := look
  simp only at hfound hentry hmap
  subst hfound hentry
  rw [hmap, if_pos rfl]
  have hat : Map.at_ { w.map with hint := map.hint } (some e.id) = (b, e :: l) :=
    at_middle (m := { w.map with hint := map.hint }) hm' h.nodup
  have hclip : Space.clipStartAt { w with map := { w.map with hint := map.hint } } (some e.id) start =
      { w with map := { w.map with hint := map.hint } } := by
    unfold Space.clipStartAt
    rw [hat]
    simp only
    rw [clipStart, if_neg (by omega)]
    simp only [List.append_nil]
    rw [← hm']
    rfl
  rw [hclip, hat]
  simp only
  rw [← hl, unwireCheck_true (fun x hx => (hp x hx).2.2) hr hno, if_pos rfl,
    sweep_lower (fun x hx => ⟨(hp x hx).1, (hp x hx).2.1⟩) hr]
  rfl

end Unwire

/-! ## A failed fault -/

section Undo
variable {start end_ : Nat} {b ws bk p q l es es' : List Entry} {x : Entry} {w w' : Space}

theorem split_at_start (hle : ∀ e ∈ l, e.start ≤ e.end_) (ho : l.Pairwise fun a b => a.end_ ≤ b.start) (f : Nat) :
    ∃ l1 l2, l = l1 ++ l2 ∧ (∀ e ∈ l1, e.start < f) ∧ ∀ e ∈ l2, f ≤ e.start := by
  induction l with
  | nil => exact ⟨[], [], rfl, by simp, by simp⟩
  | cons e l ih =>
    obtain ⟨he, ho⟩ := List.pairwise_cons.1 ho
    by_cases hf : e.start < f
    · obtain ⟨l1, l2, rfl, h1, h2⟩ := ih (fun y hy => hle y (by simp [hy])) ho
      refine ⟨e :: l1, l2, rfl, fun y hy => ?_, h2⟩
      rcases List.mem_cons.1 hy with rfl | hy
      · exact hf
      · exact h1 y hy
    · refine ⟨[], e :: l, rfl, by simp, fun y hy => ?_⟩
      rcases List.mem_cons.1 hy with rfl | hy
      · omega
      · have h1 := he y hy
        have h2 := hle e (by simp)
        omega

theorem NoHole.congr (h : NoHole end_ es) (hp : es'.map Entry.place = es.map Entry.place) : NoHole end_ es' := by
  induction es generalizing es' with
  | nil =>
    obtain rfl : es' = [] := by simpa using hp
    trivial
  | cons e es ih =>
    cases es' with
    | nil => simp at hp
    | cons e' es' =>
      simp only [List.map_cons, List.cons.injEq, Entry.place, Prod.mk.injEq] at hp
      obtain ⟨⟨-, hs, he⟩, hp⟩ := hp
      refine ⟨fun h1 h2 => ?_, ih h.2 hp⟩
      obtain ⟨n, hn, hle⟩ := h.1 (by omega) (by omega)
      cases es' with
      | nil =>
        obtain rfl : es = [] := by simpa using hp.symm
        simp at hn
      | cons n' es' =>
        cases es with
        | nil => simp at hp
        | cons n0 es =>
          obtain rfl : n0 = n := by simpa using hn
          have hn' : n'.start = n0.start := congrArg (fun t : Nat × Nat × Nat => t.2.1) (List.cons.inj hp).1
          exact ⟨n', rfl, by omega⟩

theorem NoHole.mono (h : NoHole end_ es) {f : Nat} (hf : f ≤ end_) : NoHole f es := by
  induction es with
  | nil => trivial
  | cons e es ih => exact ⟨fun h1 h2 => h.1 (by omega) (by omega), ih h.2⟩

theorem lowered_middle (hn : (ids (l ++ (es ++ es'))).Nodup) :
    lowered (ids es) ((l ++ (es ++ es')).map Entry.slot) = (l ++ (es.map Entry.lower ++ es')).map Entry.slot := by
  have hout : ∀ k : List Entry, (∀ e ∈ k, e.id ∉ ids es) → lowered (ids es) (k.map Entry.slot) = k.map Entry.slot := by
    intro k hk
    rw [lowered, List.map_map]
    refine List.map_congr_left fun e he => ?_
    exact if_neg (hk e he)
  have hin : lowered (ids es) (es.map Entry.slot) = (es.map Entry.lower).map Entry.slot := by
    rw [lowered, List.map_map, List.map_map]
    refine List.map_congr_left fun e he => ?_
    exact if_pos (List.mem_map_of_mem he)
  have happ : ∀ k k', lowered (ids es) (k ++ k') = lowered (ids es) k ++ lowered (ids es) k' := fun _ _ => List.map_append
  simp only [ids_append] at hn
  obtain ⟨-, hn2, hn3⟩ := List.nodup_append.1 hn
  obtain ⟨-, -, hn4⟩ := List.nodup_append.1 hn2
  simp only [List.map_append, happ]
  rw [hin, hout l fun e he hi => hn3 _ (List.mem_map_of_mem he) _ (List.mem_append_left _ hi) rfl,
    hout es' fun e he hi => hn4 _ hi _ (List.mem_map_of_mem he) rfl]

theorem slot_lower_map (h : es'.map Entry.slot = es.map Entry.slot) :
    (es'.map Entry.lower).map Entry.slot = (es.map Entry.lower).map Entry.slot := by
  have := congrArg (List.map fun s : (Nat × Nat × Nat) × Int => (s.1, s.2 - 1)) h
  rw [List.map_map, List.map_map] at this ⊢
  exact this

theorem map_split {f : Entry → (Nat × Nat × Nat) × Int} (h : es.map f = (p ++ q).map f) :
    ∃ p' q', es = p' ++ q' ∧ p'.map f = p.map f ∧ q'.map f = q.map f := by
  rw [List.map_append] at h
  obtain ⟨p', q', rfl, hp, hq⟩ := List.map_eq_append_iff.1 h
  exact ⟨p', q', rfl, hp, hq⟩

theorem mem_slot (h : es'.map Entry.slot = es.map Entry.slot) {e : Entry} (he : e ∈ es') :
    ∃ y ∈ es, y.start = e.start ∧ y.end_ = e.end_ ∧ y.wiredCount = e.wiredCount := by
  obtain ⟨y, hy, hye⟩ := List.mem_map.1 (h ▸ List.mem_map_of_mem he)
  simp only [Entry.slot, Entry.place, Prod.mk.injEq] at hye
  exact ⟨y, hy, hye.1.2.1, hye.1.2.2, hye.2⟩

/-- The entries in front of the failed one are lowered by unwiring them, those from
it on are already: all see their counts from before the call again. -/
theorem wire_undone {x : Entry} (hsplit : ws.map Entry.raise = p ++ x :: q) (hplaced : Placed w.map)
    (hm : w.map.entries = b ++ (ws.map Entry.raise ++ bk)) (hlow : Lowered (ids (x :: q)) w w')
    (hcounts : ∀ y ∈ ws, 0 ≤ y.wiredCount) (hinside : ∀ y ∈ ws, start ≤ y.start ∧ y.start < end_ ∧ y.end_ ≤ end_)
    (hno : NoHole end_ (ws ++ bk)) (hhead : ∃ y ∈ ws.head?, y.start = start ∧ start < y.end_) (a : Nat) :
    wiredAt (unwire w' start x.start).2.map.entries a = wiredAt (b ++ (ws ++ bk)) a := by
  have hm1 : w.map.entries = (b ++ p) ++ ((x :: q) ++ bk) := by rw [hm, hsplit]; simp
  have hslots := hlow.slots
  rw [hm1, lowered_middle (hm1 ▸ hplaced.nodup)] at hslots
  obtain ⟨bp, xk, hw', hbp, hxk⟩ := map_split hslots
  obtain ⟨b', p', rfl, hb', hp'⟩ := map_split hbp
  obtain ⟨x', k', rfl, hx', hk'⟩ := map_split hxk
  -- The entries of `w'` are in the places of those of the range.
  have hplaces : (p' ++ (x' ++ k')).map Entry.place = (ws ++ bk).map Entry.place := by
    have h1 := places_of_slots hp'
    have h2 := places_of_slots hx'
    have h3 := places_of_slots hk'
    have h4 : ws.map Entry.place = p.map Entry.place ++ (x :: q).map Entry.place := by
      rw [← List.map_append, ← hsplit, List.map_map]
      rfl
    rw [List.map_append, List.map_append, h1, h2, h3, List.map_append, h4, List.map_map, List.append_assoc]
    rfl
  have hinw : ∀ y ∈ ws.map Entry.raise, start ≤ y.start ∧ y.start < end_ ∧ 1 ≤ y.wiredCount := fun y hy => by
    obtain ⟨z, hz, rfl⟩ := List.mem_map.1 hy
    have h1 := hinside z hz
    have h2 := hcounts z hz
    simp only [Entry.raise]
    omega
  have hx := hinw x (by rw [hsplit]; simp)
  have horder := hlow.placed.order
  have hle := hlow.placed.le
  rw [hw'] at horder hle
  obtain ⟨hbp', hxk', hcross⟩ := List.pairwise_append.1 horder
  obtain ⟨y, q', rfl⟩ : ∃ y q', x' = y :: q' := by
    cases x' with
    | nil => simp at hx'
    | cons y q' => exact ⟨y, q', rfl⟩
  have hyx : y.start = x.start := by
    have := (List.cons.inj hx').1
    exact congrArg (fun s : (Nat × Nat × Nat) × Int => s.1.2.1) this
  have hpend : ∀ z ∈ p', z.end_ ≤ x.start := fun z hz => by
    rw [← hyx]
    exact hcross z (by simp [hz]) y (by simp)
  have hrest : ∀ z ∈ y :: q' ++ k', x.start ≤ z.start := fun z hz => by
    rw [List.cons_append] at hz hxk'
    rcases List.mem_cons.1 hz with rfl | hz
    · exact Nat.le_of_eq hyx.symm
    · have h1 := (List.pairwise_cons.1 hxk').1 z hz
      have h2 := hle y (by simp)
      omega
  -- Entries without addresses in front of the failed one stay raised.
  obtain ⟨p1, p0, rfl, hp1, hp0⟩ := split_at_start (fun z hz => hle z (by simp [hz])) (List.pairwise_append.1 hbp').2.1 x.start
  have hm' : w'.map.entries = b' ++ (p1 ++ (p0 ++ (y :: q' ++ k'))) := by rw [hw']; simp
  have hpmem : ∀ z ∈ p1 ++ p0, ∃ v ∈ ws.map Entry.raise, v.wiredCount = z.wiredCount := fun z hz => by
    obtain ⟨v, hv, -, -, hc⟩ := mem_slot hp' hz
    exact ⟨v, by rw [hsplit]; simp [hv], hc⟩
  have hp1' : ∀ z ∈ p1, z.start < x.start ∧ z.end_ ≤ x.start ∧ z.wiredCount ≠ 0 := fun z hz => by
    obtain ⟨v, hv, hc⟩ := hpmem z (by simp [hz])
    have := hinw v hv
    exact ⟨hp1 z hz, hpend z (by simp [hz]), by omega⟩
  have hr' : ∀ z ∈ p0 ++ (y :: q' ++ k'), x.start ≤ z.start := fun z hz => by
    rcases List.mem_append.1 hz with hz | hz
    · exact hp0 z hz
    · exact hrest z hz
  have hno' : NoHole x.start (p1 ++ (p0 ++ (y :: q' ++ k'))) := by
    rw [← List.append_assoc]
    exact (hno.mono (Nat.le_of_lt hx.2.1)).congr hplaces
  have hhead' : ∃ z ∈ (p1 ++ (p0 ++ (y :: q' ++ k'))).head?, z.start = start ∧ start < z.end_ := by
    obtain ⟨u, hu, hus, hue⟩ := hhead
    have hfirst := congrArg List.head? hplaces
    rw [List.head?_map, List.head?_map, List.append_assoc, List.head?_append (l := ws), Option.mem_def.1 hu] at hfirst
    obtain ⟨z, hz, hzu⟩ := Option.map_eq_some_iff.1 hfirst
    simp only [Entry.place, Prod.mk.injEq] at hzu
    exact ⟨z, hz, by omega, by omega⟩
  obtain ⟨z, hz, hzs, hze⟩ := hhead'
  have hzin := hlow.placed.inside z (by rw [hm']; exact List.mem_append_right _ (List.mem_of_head? hz))
  have hyin := hlow.placed.inside y (by rw [hw']; simp)
  have hyle := hle y (by simp)
  rw [unwire_spec hlow.placed hm' ⟨z, hz, hzs, hze⟩ hp1' hr' hno' (by omega) hx.1 (by omega)]
  refine wiredAt_of_view ?_ a
  have hp0v : p0.map Entry.view = (p0.map Entry.lower).map Entry.view := by
    rw [List.map_map]
    refine List.map_congr_left fun v hv => ?_
    have h1 := hp0 v hv
    have h2 := hpend v (by simp [hv])
    have hempty : ¬v.start < v.end_ := by omega
    simp [Entry.view, Entry.lower, Entry.place, hempty]
  have hpv := view_of_slots (slot_lower_map hp')
  have hwsv : ws.map Entry.view = (p.map Entry.lower).map Entry.view ++ ((x :: q).map Entry.lower).map Entry.view := by
    rw [← List.map_append, ← List.map_append, ← hsplit, List.map_map (f := Entry.raise)]
    congr 1
    exact (List.map_id'' lower_raise ws).symm
  rw [List.map_append] at hpv
  simp only [List.map_append] at hpv ⊢
  rw [view_of_slots hb', view_of_slots hx', view_of_slots hk', hp0v, hwsv, ← hpv]
  simp only [List.append_assoc]

end Undo

/-! ## The call -/

section Call
variable {start end_ : Nat} {b r : List Entry} {e : Entry} {w : Space}

/-- The effect of a wiring on the counts: none if it fails; if it succeeds the
addresses of the range, all of them mapped, are raised by one. -/
structure Wires (start end_ : Nat) (m : Map) (result : Kern × Space) : Prop where
  failure : result.1 ≠ .success → ∀ a, wiredAt result.2.map.entries a = wiredAt m.entries a
  success : result.1 = .success → ∀ a, wiredAt result.2.map.entries a =
    if start ≤ a ∧ a < end_ then (wiredAt m.entries a).map (· + 1) else wiredAt m.entries a
  mapped : result.1 = .success → ∀ a, start ≤ a → a < end_ → wiredAt m.entries a ≠ none

theorem wiredAt_ne_none {es : List Entry} {a : Nat} (he : e ∈ es) (ha : e.start ≤ a ∧ a < e.end_) : wiredAt es a ≠ none := by
  intro hnone
  have := List.find?_eq_none.1 (Option.map_eq_none_iff.1 hnone) e he
  simp only [Bool.and_eq_true, decide_eq_true_eq] at this
  exact this ha

/-- `vm_map_pageable` from pass 1 on, at the entry that holds the start of the range. -/
def wireFrom (env : Env) (start end_ : Nat) (entry : Ref) (before rest : List Entry) (w : Space) : Kern × Space :=
  match wireEntries env start end_ before.reverse rest w with
  | (false, es, w) => (.invalidArgument, w.withEntries es)
  | (true, es, w) =>
    match wireFaults env end_ ((w.withEntries es).map.at_ entry).2 none (w.withEntries es) with
    | (none, w) => (.success, w)
    | (some (failed, rv), w) => (rv, (unwire w start failed).2)

theorem wireFrom_wires (env : Env) (hle : start ≤ end_) (h : Placed w.map) (hm : w.map.entries = b ++ e :: r)
    (hin : e.start ≤ start ∧ start < e.end_) (hc : ∀ x ∈ w.map.entries, 0 ≤ x.wiredCount) :
    Wires start end_ w.map (wireFrom env start end_ (some e.id) b (e :: r) w) := by
  obtain ⟨b', ws, bk, hfirst⟩ := firstPass env hle h hm hin hc
  unfold wireFrom
  generalize wireEntries env start end_ b.reverse (e :: r) w = res at hfirst
  obtain ⟨ok, es, w1⟩ := res
  cases ok with
  | false =>
    have hes : es = b' ++ (ws ++ bk) := hfirst.entries
    subst hes
    exact ⟨fun _ => hfirst.wired, by simp, by simp⟩
  | true =>
    have hes : es = b' ++ (ws.map Entry.raise ++ bk) := hfirst.entries
    have hplaced : Placed (w1.withEntries es).map := hfirst.placed
    subst hes
    have hbk := hfirst.behind rfl
    have hno := hfirst.noHole rfl
    have hat : ((w1.withEntries (b' ++ (ws.map Entry.raise ++ bk))).map.at_ (some e.id)).2 = ws.map Entry.raise ++ bk := by
      obtain ⟨x, hx, hid⟩ := hfirst.entry
      obtain ⟨x', l, hl, hid'⟩ : ∃ x' l, ws.map Entry.raise ++ bk = x' :: l ∧ x'.id = e.id := by
        cases ws with
        | nil =>
          cases bk with
          | nil => simp at hx
          | cons y bk =>
            obtain rfl : y = x := by simpa using hx
            exact ⟨y, bk, rfl, (Option.some.inj hid).symm⟩
        | cons y ws =>
          obtain rfl : y = x := by simpa using hx
          exact ⟨y.raise, ws.map Entry.raise ++ bk, rfl, (Option.some.inj hid).symm⟩
      rw [hl] at hplaced ⊢
      rw [← hid', at_middle (b := b') (r := l) rfl hplaced.nodup]
    simp only
    rw [hat]
    have hwsr : ∀ x ∈ ws.map Entry.raise, x.start < end_ := fun x hx => by
      obtain ⟨y, hy, rfl⟩ := List.mem_map.1 hx
      exact (hfirst.inside y hy).2.1
    have hn : (ids (ws.map Entry.raise)).Nodup := by
      have := hplaced.nodup
      simp only [Space.withEntries, ids_append] at this
      exact (List.nodup_append.1 (List.nodup_append.1 this).2.1).1
    have hraise := wiredAt_raise hfirst.before hfirst.inside hbk
    rcases wireFaults_spec env hwsr hn hbk _ hplaced with ⟨hnone, hu⟩ | ⟨p, x, q, rv, hsplit, hrv, hsome, hlow⟩
    · generalize wireFaults env end_ (ws.map Entry.raise ++ bk) none _ = fr at hnone hu
      obtain ⟨failed, w2⟩ := fr
      obtain rfl : failed = none := hnone
      refine ⟨fun hf => absurd rfl hf, fun _ a => ?_, fun _ a ha1 ha2 => ?_⟩
      · rw [wiredAt_congr hu.slots a, ← hfirst.wired a]
        exact hraise a
      · obtain ⟨y, hy, hys, hye⟩ := hfirst.head (by omega)
        have hhead : ∃ z ∈ (ws ++ bk).head?, z.start ≤ a := ⟨y, by rw [List.head?_append, Option.mem_def.1 hy]; rfl, by omega⟩
        obtain ⟨z, hz, hza⟩ := hno.covers hhead ha2
        rw [← hfirst.wired a]
        exact wiredAt_ne_none (List.mem_append_right b' hz) hza
    · generalize wireFaults env end_ (ws.map Entry.raise ++ bk) none _ = fr at hsome hlow
      obtain ⟨failed, w2⟩ := fr
      obtain rfl : failed = some (x.start, rv) := hsome
      refine ⟨fun _ a => ?_, fun hs => absurd hs hrv, fun hs => absurd hs hrv⟩
      have hlt : start < end_ := by
        obtain ⟨y, hy, hyx⟩ := List.mem_map.1 (show x ∈ ws.map Entry.raise by rw [hsplit]; simp)
        have := hfirst.inside y hy
        omega
      rw [← hfirst.wired a]
      exact wire_undone hsplit hplaced rfl hlow hfirst.counts hfirst.inside hno (hfirst.head hlt) a

/-- Any call on any map with empty entries or without: if it fails every address sees the
wired count from before, if it succeeds those of the range, and no others, one more. -/
theorem pageable_wires (env : Env) (h : Placed w.map) (hc : ∀ x ∈ w.map.entries, 0 ≤ x.wiredCount) (start end_ : Nat) :
    let result := vmMapPageable env w start end_ false
    (result.1 ≠ .success → ∀ a, wiredAt result.2.map.entries a = wiredAt w.map.entries a) ∧
      (result.1 = .success → ∀ a, wiredAt result.2.map.entries a =
        if start ≤ a ∧ a < end_ then (wiredAt w.map.entries a).map (· + 1) else wiredAt w.map.entries a) ∧
      (result.1 = .success → ∀ a, start ≤ a → a < end_ → w.map.minOffset ≤ a → a < w.map.maxOffset →
        wiredAt w.map.entries a ≠ none) := by
  have hle := rangeCheck_le w.map start end_
  have hmem := rangeCheck_mem w.map start end_
  have hlook := h.lookup (rangeCheck w.map start end_).1
  have heq : vmMapPageable env w start end_ false =
      if (vmMapLookupEntry w.map (rangeCheck w.map start end_).1).1 then
        wireFrom env (rangeCheck w.map start end_).1 (rangeCheck w.map start end_).2
          (vmMapLookupEntry w.map (rangeCheck w.map start end_).1).2.1
          ((vmMapLookupEntry w.map (rangeCheck w.map start end_).1).2.2.at_
            (vmMapLookupEntry w.map (rangeCheck w.map start end_).1).2.1).1
          ((vmMapLookupEntry w.map (rangeCheck w.map start end_).1).2.2.at_
            (vmMapLookupEntry w.map (rangeCheck w.map start end_).1).2.1).2
          { w with map := (vmMapLookupEntry w.map (rangeCheck w.map start end_).1).2.2 }
      else (.invalidAddress, { w with map := (vmMapLookupEntry w.map (rangeCheck w.map start end_).1).2.2 }) := rfl
  rw [heq]
  generalize rangeCheck w.map start end_ = range at hle hmem hlook
  obtain ⟨s, t⟩ := range
  simp only at hle hmem hlook ⊢
  generalize vmMapLookupEntry w.map s = look at hlook
  obtain ⟨found, entry, map⟩ := look
  obtain ⟨hsame, hlive, hsound, hcomplete⟩ := hlook
  simp only at hsame hsound hcomplete ⊢
  rw [hsame]
  cases found with
  | false => exact ⟨fun _ _ => rfl, by simp, by simp⟩
  | true =>
    obtain ⟨e, he, hin⟩ := hsound rfl
    obtain ⟨b, r, hm⟩ := List.append_of_mem he
    obtain rfl := (hcomplete b e r hm hin).2
    have h' : Placed { w.map with hint := map.hint } := { h with hint := hlive }
    have hat : Map.at_ { w.map with hint := map.hint } (some e.id) = (b, e :: r) :=
      at_middle (m := { w.map with hint := map.hint }) hm h.nodup
    rw [if_pos rfl, hat]
    have hw := wireFrom_wires (w := { w with map := { w.map with hint := map.hint } }) env hle h' hm hin hc
    refine ⟨hw.failure, fun hs a => ?_, fun hs a h1 h2 h3 h4 => ?_⟩
    · rw [hw.success hs a]
      -- The range is cut to the map, outside of which there are no entries.
      by_cases ha : w.map.minOffset ≤ a ∧ a < w.map.maxOffset
      · simp only [hmem a ha]
      · have hnone : wiredAt w.map.entries a = none := by
          rw [wiredAt, seen_none fun x hx => ?_]
          · rfl
          · have := h.inside x hx
            omega
        simp [hnone]
    · have := (hmem a ⟨h3, h4⟩).2 ⟨h1, h2⟩
      exact hw.mapped hs a this.1 this.2

/-- The fault of the page at `page` fails, all others succeed. -/
def faultAt (page : Nat) : Env where
  garbage := readOnly 0 0 (.vmObject none) false
  coalesce _ _ _ _ := false
  shadow _ _ _ := 0
  allocate _ := 0
  copy o off _ := (o, off, false)
  faultWire start _ := if start = page then ([(start, 1)], .failure) else ([(start, 1)], .success)

/-- Two pages; the fault of the second one fails. -/
theorem second_page_fails :
    let w := twoPages (readOnly 0 0 (.vmObject none) false) (readOnly 1 1 (.vmObject none) false)
    wiredAt (vmMapPageable (faultAt 4096) w 0 8192 false).2.map.entries = wiredAt w.map.entries := by
  funext a
  exact (pageable_wires (faultAt 4096) (linked_twoPages _ _ _ _).placed (by decide) 0 8192).1 (by decide) a

end Call

end BsdKernel.VmMap
