import BsdKernel.Net.RouteInv
/-!
# The functions keep the counts

One lemma for each function of `net/route.c`. A function that gives a reference back takes it from `refs`, one that returns an
entry adds it. `rtalloc1` is a parameter of what it calls (`Keeps`) and is proved by induction on its depth.
-/

set_option linter.unusedSectionVars false

namespace BsdKernel.Route

open Lib Lib.Cmd

variable {A F T : Type} [DecidableEq F]
variable {Q : Unit → Routes A F T → Prop}

/-- The stops that are no error of the counts. -/
def Excused (e : Stop) (_ : Routes A F T) : Prop := e = .wrapped ∨ e = .diverged

/-! ## Memory -/

section Memory
variable {s : Routes A F T} {i : Nat} {e : Rtentry A F} {E : Stop → Routes A F T → Prop}

theorem wp_load {Q : Rtentry A F → Routes A F T → Prop} (hi : s.mem i = some e) (h : Q e s) : wp (load i) Q E s := by
  unfold wp load
  rw [hi]
  exact h

theorem wp_seq_load {α : Type} {k : Rtentry A F → RtM A F T α} {Q : α → Routes A F T → Prop} (hi : s.mem i = some e)
    (h : wp (k e) Q E s) : wp (load i >>= k) Q E s := wp_bind.2 (wp_load hi h)

theorem wp_store {f : Rtentry A F → Rtentry A F} (hi : s.mem i = some e) (h : Q () (s.put i (f e))) :
    wp (store i f) Q E s := by
  unfold store
  rw [wp_bind]
  exact wp_load hi h

theorem wp_addRef {d : Int} (hi : s.mem i = some e) (h : Q () (s.put i { e with rt_refcnt := e.rt_refcnt + d })) :
    wp (addRef i d) Q Excused s := by
  unfold addRef
  apply wp_seq_load hi
  rw [wp_ite]
  exact ⟨fun _ => wp_store hi h, fun _ => .inl rfl⟩

theorem wp_seq_store {α : Type} {f : Rtentry A F → Rtentry A F} {k : Unit → RtM A F T α} {Q : α → Routes A F T → Prop}
    (hi : s.mem i = some e) (h : wp (k ()) Q E (s.put i (f e))) : wp (store i f >>= k) Q E s := wp_bind.2 (wp_store hi h)

theorem wp_seq_addRef {α : Type} {d : Int} {k : Unit → RtM A F T α} {Q : α → Routes A F T → Prop} (hi : s.mem i = some e)
    (h : wp (k ()) Q Excused (s.put i { e with rt_refcnt := e.rt_refcnt + d })) : wp (addRef i d >>= k) Q Excused s :=
  wp_bind.2 (wp_addRef hi h)

theorem wp_ifaHold {f : F} {n : Int} (hn : s.ifa_refcnt f = some n) (h : Q () (s.setIfa f (some (n + 1)))) :
    wp (ifaHold f) Q Excused s := by
  have hcount : ∀ R : Int → Routes A F T → Prop, R n s → wp (ifaCount f) R Excused s := by
    intro R hR
    unfold wp ifaCount
    rw [hn]
    exact hR
  unfold ifaHold
  rw [wp_bind]
  apply hcount
  rw [wp_ite]
  exact ⟨fun _ => h, fun _ => .inl rfl⟩

theorem wp_IFAFREE {f : F} {n : Int} (hn : s.ifa_refcnt f = some n) (hpos : 0 < n)
    (h : Q () (s.setIfa f (some (n - 1)))) : wp (IFAFREE (some f)) Q E s := by
  have hcount : ∀ R : Int → Routes A F T → Prop, R n s → wp (ifaCount f) R E s := by
    intro R hR
    unfold wp ifaCount
    rw [hn]
    exact hR
  unfold IFAFREE
  rw [wp_bind]
  apply hcount
  rw [wp_ite]
  exact ⟨fun hle => absurd hle (by omega), fun _ => h⟩

theorem wp_alloc {Q : Nat → Routes A F T → Prop} {flags : Flags}
    (h : Q s.next { s.put s.next ⟨none, none, none, flags, true, 0, false, none, none, none⟩ with next := s.next + 1 }) :
    wp (alloc flags) Q E s := h

theorem wp_rMalloc {Q : Bool → Routes A F T → Prop} {malloc : Nat → Bool} (h : ∀ room, Q room { s with asked := s.asked + 1 }) :
    wp (rMalloc malloc) Q E s := h _

theorem wp_free (hi : s.mem i = some e) (h : Q () { s with mem := Function.update s.mem i none }) :
    wp (free i) Q E s := by
  unfold free
  rw [wp_bind]
  exact wp_load hi h

end Memory

/-! ## References -/

section References
variable {rx : Radix A T} {base : F → Nat} {s : Routes A F T} {refs bld : List Nat} {w : Option Nat} {i : Nat} {e : Rtentry A F}

/-- Nothing but the entry at `i` changes, and of it only the count. -/
structure Frame (i : Nat) (s s' : Routes A F T) : Prop where
  other : ∀ j, j ≠ i → s'.mem j = s.mem j
  tree : s'.tree = s.tree
  same : ∀ e, s.mem i = some e → (e.up = true ∨ 1 < e.rt_refcnt) → ∃ n, s'.mem i = some { e with rt_refcnt := n }

theorem frame_put (hi : s.mem i = some e) (n : Int) : Frame i s (s.put i { e with rt_refcnt := n }) := by
  refine ⟨fun j hj => put_mem_other hj, rfl, fun d hd _ => ⟨n, ?_⟩⟩
  obtain rfl := Option.some.inj (hd.symm.trans hi)
  exact put_mem_same ..

theorem count_cons_other {j : Nat} (hj : j ≠ i) : refs.count j = (i :: refs).count j := by
  rw [List.count_cons_of_ne (Ne.symm hj)]

theorem Inv.hold (h : Inv rx base s refs bld w) (hi : s.mem i = some e) (hbld : i ∉ bld) :
    Inv rx base (s.put i { e with rt_refcnt := e.rt_refcnt + 1 }) (i :: refs) bld w := by
  have hcount := (h.place i).count e hi
  apply Inv.recount h hi hbld
  · exact fun j hj => (count_cons_other hj).symm
  · rw [List.count_cons_self]
    omega
  · intro _ _
    omega

theorem Inv.release (h : Inv rx base s (i :: refs) bld w) (hi : s.mem i = some e) (hstays : e.up = true ∨ 1 < e.rt_refcnt) :
    Inv rx base (s.put i { e with rt_refcnt := e.rt_refcnt + -1 }) refs bld w := by
  have hpos : 0 < s.number (i :: refs) w i := by
    unfold Routes.number
    rw [List.count_cons_self]
    omega
  apply Inv.recount h hi (h.not_made hpos)
  · exact fun j hj => count_cons_other hj
  · rw [List.count_cons_self]
    omega
  · intro hdown _
    rcases hstays with hup | hmore
    · rw [hup] at hdown
      cases hdown
    · omega

/-- `rtfree` gives a reference back. -/
theorem rtfree_spec (h : Inv rx base s (i :: refs) bld w)
    (hline : w = some i → ∀ e, s.mem i = some e → e.up = true ∨ 1 < e.rt_refcnt) :
    wp (rtfree rx i) (fun _ s' => Inv rx base s' refs bld w ∧ Frame i s s') Excused s := by
  obtain ⟨e, hi⟩ := h.referred (List.mem_cons_self ..)
  have hpos : 0 < s.number (i :: refs) w i := by
    unfold Routes.number
    rw [List.count_cons_self]
    omega
  have hbld := h.not_made hpos
  have hat := h.place i
  have hcount := hat.count e hi
  unfold rtfree
  apply wp_seq_addRef hi
  apply wp_seq_load (put_mem_same ..)
  rw [wp_ite]
  constructor
  · rintro ⟨hzero, hdown⟩
    -- The last reference to an entry out of the tree.
    simp only at hzero hdown
    have hone : e.rt_refcnt = 1 := by omega
    have hout : w ≠ some i := by
      intro hw
      rcases hline hw e hi with hup | hmore
      · rw [hup] at hdown
        cases hdown
      · omega
    obtain ⟨hgw, hifa⟩ : e.rt_gwroute = none ∧ e.rt_ifa.isSome = true := by
      rcases hat.placed e hi hout with ⟨hup, -⟩ | ⟨-, -, hrest⟩
      · rw [hup] at hdown
        cases hdown
      · exact hrest
    have hnot : i ∉ rx.ids s.tree := by
      intro ht
      obtain ⟨d, hd, hup, -⟩ := hat.tree ht
      obtain rfl := Option.some.inj (hd.symm.trans hi)
      rw [hup] at hdown
      cases hdown
    obtain ⟨f, hf⟩ := Option.isSome_iff_exists.1 hifa
    have hholds := le_sum (f := holds f) (h.next hi) hi
    rw [holds, if_pos hf] at hholds
    rw [wp_bind, wp_get, wp_ite]
    refine ⟨fun ht => absurd ht hnot, fun _ => ?_⟩
    rw [wp_bind, wp_modify, wp_ite]
    refine ⟨fun hneg => absurd hneg (by show ¬e.rt_refcnt + -1 < 0; omega), fun _ => ?_⟩
    rw [wp_bind, hf]
    refine wp_IFAFREE (by exact h.ifa f) (by omega) ?_
    refine wp_free (by exact put_mem_same ..) ?_
    refine ⟨?_, ⟨?_, rfl, ?_⟩⟩
    · have hpoints : ∀ j, points w j i e = 0 := fun j => if_neg fun hc => by
        rw [hgw] at hc
        cases hc.1
      apply Inv.remove h hi
      · show Function.update (Function.update s.mem i _) i none = _
        exact Function.update_idem ..
      · rfl
      · rfl
      · exact hnot
      · exact fun j hj => count_cons_other hj
      · unfold Routes.number at hcount
        rw [List.count_cons_self] at hcount
        omega
      · exact hpoints
      · exact fun _ _ => Iff.rfl
      · exact hbld
      · exact fun _ _ => Iff.rfl
      · exact hout
      · have hdead : dead w i e = 1 := if_pos ⟨hdown, hout⟩
        show s.rttrash - 1 + (dead w i e : Int) = s.rttrash
        rw [hdead]
        omega
      · intro g
        show ∃ n : Nat, Function.update s.ifa_refcnt f _ g = some (n : Int) ∧ _
        by_cases hg : g = f
        · subst hg
          refine ⟨base g + s.sum (holds g) - 1, ?_, ?_⟩
          · rw [Function.update_self]
            congr 1
            omega
          · rw [holds, if_pos hf]
            omega
        · refine ⟨base g + s.sum (holds g), ?_, ?_⟩
          · rw [Function.update_of_ne hg]
            exact h.ifa g
          · have hzero : holds g i e = 0 := if_neg fun hc => hg (Option.some.inj (hc.symm.trans hf))
            rw [hzero]
            omega
    · intro j hj
      show Function.update (Function.update s.mem i _) i none j = _
      rw [Function.update_of_ne hj, Function.update_of_ne hj]
    · intro d hd hstays
      obtain rfl := Option.some.inj (hd.symm.trans hi)
      rcases hstays with hup | hmore
      · rw [hup] at hdown
        cases hdown
      · omega
  · intro hstays
    have hstay : e.up = true ∨ 1 < e.rt_refcnt := by
      by_cases hup : e.up = true
      · exact .inl hup
      · have hdown : e.up = false := by simpa using hup
        refine .inr ?_
        by_contra hle
        exact hstays ⟨by show e.rt_refcnt + -1 ≤ 0; omega, hdown⟩
    exact ⟨h.release hi hstay, frame_put hi _⟩

theorem RTFREE_spec (h : Inv rx base s (i :: refs) bld w)
    (hline : w = some i → ∀ e, s.mem i = some e → e.up = true ∨ 1 < e.rt_refcnt) :
    wp (RTFREE rx i) (fun _ s' => Inv rx base s' refs bld w ∧ Frame i s s') Excused s := by
  obtain ⟨e, hi⟩ := h.referred (List.mem_cons_self ..)
  unfold RTFREE
  apply wp_seq_load hi
  rw [wp_ite]
  refine ⟨fun _ => rtfree_spec h hline, fun hmore => ?_⟩
  apply wp_addRef hi
  exact ⟨h.release hi (.inr (by omega)), frame_put hi _⟩

end References

/-! ## The gateway -/

/-- The entries stay, but for their counts, and the tree keeps them; the entry `x` may change. -/
structure Grow (rx : Radix A T) (x : Option Nat) (s s' : Routes A F T) : Prop where
  entries : ∀ j e, x ≠ some j → s.mem j = some e → ∃ n, s'.mem j = some { e with rt_refcnt := n }
  tree : ∀ j ∈ rx.ids s.tree, j ∈ rx.ids s'.tree

/-- There are no new entries; `x` may be one. -/
structure NoNew (x : Option Nat) (s s' : Routes A F T) : Prop where
  mem : ∀ j, x ≠ some j → s.mem j = none → s'.mem j = none
  tree : s'.tree = s.tree

/-- What `rtalloc1` does: it returns an entry of the tree with a reference to it, or none. -/
def Keeps (rx : Radix A T) (base : F → Nat) (call : Rtalloc1 A F T) : Prop :=
  ∀ dst report s refs bld, Inv rx base s refs bld none →
    wp (call dst report)
      (fun r s' => Inv rx base s' (r.toList ++ refs) bld none ∧ (∀ i ∈ r, i ∈ rx.ids s'.tree) ∧ Grow rx none s s') Excused s

section Gateway
variable {rx : Radix A T} {base : F → Nat} {s s' s'' : Routes A F T} {refs bld : List Nat} {x : Option Nat} {i : Nat} {e e' : Rtentry A F}
  {ad : Addrs A} {malloc : Nat → Bool} {call : Rtalloc1 A F T}

theorem Grow.refl (x : Option Nat) (s : Routes A F T) : Grow rx x s s := ⟨fun _ e _ hj => ⟨e.rt_refcnt, hj⟩, fun _ hj => hj⟩

theorem Grow.trans (h : Grow rx x s s') (h' : Grow rx x s' s'') : Grow rx x s s'' := by
  refine ⟨fun j e hx hj => ?_, fun j hj => h'.tree j (h.tree j hj)⟩
  obtain ⟨n, hn⟩ := h.entries j e hx hj
  obtain ⟨m, hm⟩ := h'.entries j _ hx hn
  exact ⟨m, hm⟩

theorem Grow.but (h : Grow rx none s s') (x : Option Nat) : Grow rx x s s' := ⟨fun j e _ hj => h.entries j e (by simp) hj, h.tree⟩

theorem Grow.put (e' : Rtentry A F) : Grow rx (some i) s (s.put i e') := by
  refine ⟨fun j e hx hj => ⟨e.rt_refcnt, ?_⟩, fun _ hj => hj⟩
  rw [put_mem_other fun hc => hx (congrArg some hc.symm)]
  exact hj

theorem Grow.erase (i : Nat) (s : Routes A F T) : Grow rx (some i) s { s with mem := Function.update s.mem i none } := by
  refine ⟨fun j e hx hj => ⟨e.rt_refcnt, ?_⟩, fun _ hj => hj⟩
  rw [← hj]
  exact Function.update_of_ne (fun hc => hx (congrArg some hc.symm)) ..

theorem Frame.grow (h : Frame i s s') (hi : s.mem i = some e) (hup : e.up = true) : Grow rx none s s' := by
  refine ⟨fun j d _ hj => ?_, fun j hj => by rw [h.tree]; exact hj⟩
  by_cases hji : j = i
  · subst hji
    obtain rfl := Option.some.inj (hj.symm.trans hi)
    exact h.same _ hi (.inl hup)
  · exact ⟨d.rt_refcnt, by rw [h.other j hji]; exact hj⟩

theorem NoNew.trans (h : NoNew x s s') (h' : NoNew x s' s'') : NoNew x s s'' :=
  ⟨fun j hx hj => h'.mem j hx (h.mem j hx hj), h'.tree.trans h.tree⟩

theorem NoNew.put (hi : s.mem i = some e) (e' : Rtentry A F) : NoNew x s (s.put i e') := by
  refine ⟨fun j _ hj => ?_, rfl⟩
  have hne : j ≠ i := by
    rintro rfl
    rw [hi] at hj
    cases hj
  rw [put_mem_other hne]
  exact hj

theorem Frame.noNew (h : Frame i s s') (hi : s.mem i = some e) : NoNew x s s' := by
  refine ⟨fun j _ hj => ?_, h.tree⟩
  have hne : j ≠ i := by
    rintro rfl
    rw [hi] at hj
    cases hj
  rw [h.other j hne]
  exact hj

theorem NoNew.erase (i : Nat) (s : Routes A F T) : NoNew (some i) s { s with mem := Function.update s.mem i none } := by
  refine ⟨fun j hx hj => ?_, rfl⟩
  rw [← hj]
  exact Function.update_of_ne (fun hc => hx (congrArg some hc.symm)) ..

theorem Inv.asked (h : Inv rx base s refs bld x) (n : Nat) : Inv rx base { s with asked := n } refs bld x :=
  ⟨fun i => (h.place i).congr (Nat.le_refl _) rfl rfl Iff.rfl Iff.rfl Iff.rfl, h.trash, h.ifa⟩

theorem wp_gateRoom {Q : Bool → Routes A F T → Prop} {E : Stop → Routes A F T → Prop} {gate : A}
    (h : ∀ room n, Q room { s with asked := n }) : wp (gateRoom ad malloc e gate) Q E s := by
  unfold gateRoom
  rw [wp_ite]
  exact ⟨fun _ => h true s.asked, fun _ => h _ _⟩

/-- The pointer is released. -/
theorem dropGate_line (h : Inv rx base s (e.rt_gwroute.toList ++ refs) bld (some i)) (hi : s.mem i = some e) (hbld : i ∉ bld)
    (hself : e.rt_gwroute = some i → e.up = true ∨ 1 < e.rt_refcnt) :
    wp (dropGate rx i) (fun _ s' => Inv rx base s' refs bld (some i) ∧ s'.tree = s.tree ∧
      ∃ n, s'.mem i = some { e with rt_gwroute := none, rt_refcnt := n }) Excused s := by
  unfold dropGate
  apply wp_seq_load hi
  cases hgw : e.rt_gwroute with
  | none =>
    rw [hgw] at h
    refine ⟨h, rfl, e.rt_refcnt, ?_⟩
    rw [hi, ← hgw]
  | some g =>
    rw [hgw] at h
    refine wp_seq (RTFREE_spec h fun hg d hd => ?_) ?_
    · obtain rfl := Option.some.inj hg
      obtain rfl := Option.some.inj (hd.symm.trans hi)
      exact hself hgw
    · rintro - s1 ⟨hinv, hframe⟩
      obtain ⟨n, hn⟩ : ∃ n, s1.mem i = some { e with rt_refcnt := n } := by
        by_cases hgi : g = i
        · subst hgi
          exact hframe.same e hi (hself hgw)
        · exact ⟨e.rt_refcnt, by rw [hframe.other i (Ne.symm hgi)]; exact hi⟩
      apply wp_store hn
      refine ⟨?_, hframe.tree, n, put_mem_same ..⟩
      exact Inv.set_line hinv hn hbld (fun _ _ => Iff.rfl) (fun ht => ⟨ht, rfl⟩) rfl rfl rfl

/-- The same for an entry that is up. -/
theorem dropGate_up (h : Inv rx base s refs bld none) (hi : s.mem i = some e) (hup : e.up = true) (hbld : i ∈ bld → e.rt_gwroute = none) :
    wp (dropGate rx i) (fun _ s' => Inv rx base s' refs bld none ∧ s'.tree = s.tree ∧ (e.rt_gwroute = none → s' = s) ∧
      ∃ n, s'.mem i = some { e with rt_gwroute := none, rt_refcnt := n }) Excused s := by
  cases hgw : e.rt_gwroute with
  | none =>
    unfold dropGate
    apply wp_seq_load hi
    rw [hgw]
    exact ⟨h, rfl, fun _ => rfl, e.rt_refcnt, by rw [hi, ← hgw]⟩
  | some g =>
    have hnot : i ∉ bld := by
      intro hb
      rw [hbld hb] at hgw
      cases hgw
    refine wp_post (dropGate_line (h.take_pointer hi hup) hi hnot fun _ => .inl hup) ?_
    rintro - s1 ⟨hinv, htree, n, hn⟩
    have htree' : i ∈ rx.ids s.tree := by
      rcases (h.place i).placed e hi (by simp) with ⟨-, ht | hb⟩ | ⟨hdown, -⟩
      · exact ht
      · exact absurd hb hnot
      · rw [hup] at hdown
        cases hdown
    have hback := hinv.back_in_line hn rfl (.inl ⟨hup, .inl (htree ▸ htree')⟩)
    have hzero : dead none i { e with rt_gwroute := none, rt_refcnt := n } = 0 := by simp [dead, hup]
    rw [hzero] at hback
    have hsame : ({ s1 with rttrash := s1.rttrash + (0 : Nat) } : Routes A F T) = s1 := by simp
    rw [hsame] at hback
    exact ⟨hback, htree, (by simp), n, hn⟩

/-- `rt_setgate` of an entry that is up. -/
theorem rtSetgate_spec (hk : Keeps rx base call) (gate : A) (h : Inv rx base s refs bld none) (hi : s.mem i = some e) (hup : e.up = true)
    (hbld : i ∈ bld → e.rt_gwroute = none) :
    wp (rtSetgate rx ad malloc call i gate) (fun failed s' => Inv rx base s' refs bld none ∧
      (e.rt_gwroute = none → Grow rx (some i) s s' ∧ ∀ e' g, s'.mem i = some e' → e'.rt_gwroute = some g → g ∈ rx.ids s'.tree) ∧
      ∃ e', s'.mem i = some e' ∧ e'.up = true ∧ e'.rt_ifa = e.rt_ifa ∧ (failed = false → e'.rt_gateway.isSome) ∧
        (failed = true → e'.rt_gwroute = e.rt_gwroute)) Excused s := by
  unfold rtSetgate
  apply wp_seq_load hi
  rw [wp_bind]
  apply wp_gateRoom
  intro room n
  have hasked := h.asked n
  have hgrow0 : Grow rx (some i) s { s with asked := n } := ⟨fun j e _ hj => ⟨e.rt_refcnt, hj⟩, fun _ hj => hj⟩
  rw [wp_ite]
  refine ⟨fun _ => ⟨hasked, fun hgw => ⟨hgrow0, fun d g hd hg => ?_⟩, e, hi, hup, rfl, (by simp), fun _ => rfl⟩, fun _ => ?_⟩
  · obtain rfl := Option.some.inj (hd.symm.trans hi)
    rw [hgw] at hg
    cases hg
  refine wp_seq_store (by exact hi) ?_
  rw [wp_bind]
  have hneutral := hasked.neutral { e with rt_gateway := some gate } hi rfl rfl rfl rfl fun _ => rfl
  refine wp_post (dropGate_up hneutral (put_mem_same ..) hup hbld) ?_
  rintro - s1 ⟨hinv, htree, hsame, m, hm⟩
  have hgrow1 : e.rt_gwroute = none → Grow rx (some i) s s1 := fun hgw => by
    rw [hsame hgw]
    exact hgrow0.trans (Grow.put _)
  apply wp_seq_load hm
  rw [wp_ite]
  constructor
  · intro _
    refine wp_seq (hk gate true s1 refs bld hinv) ?_
    rintro r s2 ⟨hinv2, hin, hgrow2⟩
    obtain ⟨k, hk2⟩ := hgrow2.entries i _ (by simp) hm
    apply wp_seq_store hk2
    refine ⟨hinv2.give_pointer hk2 rfl hup, fun hgw => ⟨?_, fun d g hd hg => ?_⟩, _, put_mem_same .., hup, rfl, fun _ => rfl, (by simp)⟩
    · exact ((hgrow1 hgw).trans (hgrow2.but _)).trans (Grow.put _)
    · obtain rfl := Option.some.inj (hd.symm.trans (put_mem_same ..))
      exact hin g hg
  · refine fun _ => ⟨hinv, fun hgw => ⟨hgrow1 hgw, fun d g hd hg => ?_⟩, _, hm, hup, rfl, fun _ => rfl, (by simp)⟩
    obtain rfl := Option.some.inj (hd.symm.trans hm)
    cases hg

/-- An entry that is being made is freed. -/
theorem Inv.discard (h : Inv rx base s refs (i :: bld) x) (hx : x = none ∨ x = some i) (hb : i ∉ bld) (hi : s.mem i = some e)
    (hgw : x = none → e.rt_gwroute = none) : Inv rx base { s with mem := Function.update s.mem i none } refs bld none := by
  obtain ⟨hnot, hzero, d, hd, hup, hifa⟩ := (h.place i).made (List.mem_cons_self ..)
  obtain rfl := Option.some.inj (hd.symm.trans hi)
  have hw : ∀ j, j ≠ i → ((none : Option Nat) = some j ↔ x = some j) := by
    intro j hj
    rcases hx with rfl | rfl
    · exact Iff.rfl
    · exact (line_iff hj).symm
  apply Inv.remove h hi
  · rfl
  · rfl
  · rfl
  · exact hnot
  · exact fun _ _ => rfl
  · exact hzero
  · intro j
    rcases hx with rfl | rfl
    · rw [points_none, hgw rfl]
      rfl
    · exact points_line ..
  · intro j hj
    rw [List.mem_cons]
    exact (or_iff_right hj).symm
  · exact hb
  · exact hw
  · simp
  · simp [dead, hup]
  · intro f
    refine ⟨_, h.ifa f, ?_⟩
    simp [holds, hifa]

theorem Grow.fresh (h : Grow rx (some i) s s') (hi : s.mem i = none) : Grow rx none s s' := by
  refine ⟨fun j d _ hj => h.entries j d (fun hc => ?_) hj, h.tree⟩
  obtain rfl := Option.some.inj hc
  rw [hi] at hj
  cases hj

/-! ## Requests -/

/-- The reference that a request returns. -/
def returned (ret_nrt : Bool) : Except Errno Nat → List Nat
  | .ok i => if ret_nrt then [i] else []
  | .error _ => []

variable {ifs : Ifs A F}

/-- The entry is freed, and its pointer released. -/
theorem dropMade_spec (h : Inv rx base s refs (i :: bld) none) (hb : i ∉ bld) (hi : s.mem i = some e) (hup : e.up = true)
    (hin : ∀ g, e.rt_gwroute = some g → g ∈ rx.ids s.tree) :
    wp (dropMade rx i) (fun r s' => r = .error .EEXIST ∧ Inv rx base s' refs bld none ∧ Grow rx (some i) s s' ∧
      NoNew (some i) s s' ∧ s'.mem i = none) Excused s := by
  have htake := h.take_pointer hi hup
  have hrest : ∀ s1 : Routes A F T, Inv rx base s1 refs (i :: bld) (some i) → Grow rx (some i) s s1 → NoNew (some i) s s1 →
      wp (do free i; pure (.error .EEXIST) : RtM A F T (Except Errno Nat))
        (fun r s' => r = .error .EEXIST ∧ Inv rx base s' refs bld none ∧ Grow rx (some i) s s' ∧ NoNew (some i) s s' ∧ s'.mem i = none)
        Excused s1 := by
    intro s1 hinv hgrow hnew
    obtain ⟨d, hd⟩ := (hinv.place i).line rfl
    rw [wp_bind]
    apply wp_free hd
    exact ⟨rfl, hinv.discard (.inr rfl) hb hd (by simp), hgrow.trans (Grow.erase _ _), hnew.trans (NoNew.erase _ _), Function.update_self ..⟩
  unfold dropMade
  apply wp_seq_load hi
  cases hgw : e.rt_gwroute with
  | none =>
    rw [hgw] at htake
    exact hrest s htake (Grow.refl _ _) ⟨fun _ _ hj => hj, rfl⟩
  | some g =>
    rw [hgw] at htake
    refine wp_seq (rtfree_spec htake fun hg d hd => ?_) ?_
    · obtain rfl := Option.some.inj hg
      obtain rfl := Option.some.inj (hd.symm.trans hi)
      exact .inl hup
    · rintro - s1 ⟨hinv, hframe⟩
      obtain ⟨d, hd, hdup, -⟩ := (h.place g).tree (hin g hgw)
      exact hrest s1 hinv ((hframe.grow hd hdup).but _) (hframe.noNew hd)

/-- The entry gets its interface address. -/
theorem install_spec {ifs : Ifs A F} {tree : T} (ifa : F) (netmask : Option A) (ret_nrt : Bool) (h : Inv rx base s refs (i :: bld) none)
    (hb : i ∉ bld) (hi : s.mem i = some e) (hgate : e.rt_gateway.isSome) (htree : ∀ j, j ∈ rx.ids tree ↔ j = i ∨ j ∈ rx.ids s.tree) :
    wp (install ifs (some ifa) i netmask ret_nrt) (fun r s' => r = .ok i ∧
      Inv rx base s' (returned ret_nrt r ++ refs) bld none ∧ i ∈ rx.ids s'.tree ∧ Grow rx (some i) s s') Excused { s with tree := tree } := by
  obtain ⟨-, -, d, hd, hup, hifa⟩ := (h.place i).made (List.mem_cons_self ..)
  obtain rfl := Option.some.inj (hd.symm.trans hi)
  unfold install
  simp only
  rw [wp_bind]
  refine wp_ifaHold (by exact h.ifa ifa) ?_
  refine wp_seq_store (by exact hi) ?_
  let e' : Rtentry A F := { d with rt_mask := netmask, rt_ifa := some ifa, rt_ifp := ifs.ifa_ifp ifa }
  let s2 : Routes A F T := (({ s with tree := tree } : Routes A F T).setIfa ifa (some (((base ifa + s.sum (holds ifa) : Nat) : Int) + 1))).put i e'
  have hgrow : Grow rx (some i) s s2 := by
    refine ⟨fun j c hx hj => ⟨c.rt_refcnt, ?_⟩, fun j hj => (htree j).2 (.inr hj)⟩
    rw [← hj]
    exact put_mem_other fun hc => hx (congrArg some hc.symm)
  have hin : i ∈ rx.ids tree := (htree i).2 (.inl rfl)
  have hinv : Inv rx base s2 refs bld none := by
    apply Inv.set_ifa h hi e'
    · rfl
    · rfl
    · exact hin
    · exact fun j hj => (htree j).trans (or_iff_right hj)
    · intro j hj
      rw [List.mem_cons]
      exact (or_iff_right hj).symm
    · exact hb
    · rfl
    · rfl
    · exact hup
    · exact hup
    · rfl
    · exact hgate
    · rfl
    · intro f
      show ∃ n : Nat, Function.update s.ifa_refcnt ifa _ f = some (n : Int) ∧ _
      have hzero : holds f i d = 0 := by simp [holds, hifa]
      by_cases hf : f = ifa
      · subst hf
        refine ⟨base f + s.sum (holds f) + 1, ?_, ?_⟩
        · rw [Function.update_self]
          rfl
        · have hone : holds f i e' = 1 := if_pos rfl
          omega
      · refine ⟨base f + s.sum (holds f), ?_, ?_⟩
        · rw [Function.update_of_ne hf]
          exact h.ifa f
        · have hnone : holds f i e' = 0 := if_neg fun hc => hf (Option.some.inj hc).symm
          omega
  rw [wp_ite]
  constructor
  · intro hret
    apply wp_seq_addRef (put_mem_same ..)
    have hhold := hinv.hold (put_mem_same ..) hb
    refine ⟨rfl, ?_, hin, hgrow.trans (Grow.put _)⟩
    rw [returned, if_pos hret]
    exact hhold
  · intro hret
    refine ⟨rfl, ?_, hin, hgrow⟩
    rw [returned, if_neg hret]
    exact hinv

/-- The entry made by `rtrequest`. -/
theorem makeroute_spec (hk : Keeps rx base call) (ifa : F) (flags : Flags) (dst gateway : A) (netmask : Option A) (ret_nrt : Bool)
    (h : Inv rx base s refs bld none) :
    wp (makeroute rx ad malloc ifs call (some ifa) flags dst gateway netmask ret_nrt) (fun r s' =>
      Inv rx base s' (returned ret_nrt r ++ refs) bld none ∧ (∀ i, r = .ok i → i ∈ rx.ids s'.tree) ∧ Grow rx none s s') Excused s := by
  unfold makeroute
  rw [wp_bind]
  apply wp_rMalloc
  intro room
  have hasked := h.asked (s.asked + 1)
  have hfree : s.mem s.next = none := h.free_next
  rw [wp_ite]
  refine ⟨fun _ => ⟨hasked, (by simp), ⟨fun j e _ hj => ⟨e.rt_refcnt, hj⟩, fun _ hj => hj⟩⟩, fun _ => ?_⟩
  obtain ⟨hadd, hb⟩ := hasked.add (e := ⟨none, none, none, flags, true, 0, false, none, none, none⟩) rfl rfl rfl rfl
  rw [wp_bind]
  apply wp_alloc
  have hgrow0 : Grow rx (some s.next) s { s.put s.next ⟨none, none, none, flags, true, 0, false, none, none, none⟩ with
      next := s.next + 1, asked := s.asked + 1 } :=
    ⟨fun j e hx hj => ⟨e.rt_refcnt, by rw [← hj]; exact put_mem_other fun hc => hx (congrArg some hc.symm)⟩, fun _ hj => hj⟩
  refine wp_seq (rtSetgate_spec hk gateway hadd (put_mem_same ..) rfl fun _ => rfl) ?_
  rintro failed s1 ⟨hinv1, hgrow1, e1, he1, hup1, -, hgate1, hgw1⟩
  obtain ⟨hgrow1, hin1⟩ := hgrow1 rfl
  have hgrow1 := hgrow0.trans hgrow1
  rw [wp_ite]
  constructor
  · intro hfailed
    rw [wp_bind]
    apply wp_free he1
    exact ⟨hinv1.discard (.inl rfl) hb he1 fun _ => hgw1 hfailed, (by simp), (hgrow1.trans (Grow.erase _ _)).fresh hfree⟩
  · intro hfailed
    have hgate := hgate1 (by simpa using hfailed)
    have hneutral := hinv1.neutral { e1 with rt_key := some ((netmask.map (ad.masked dst)).getD dst) } he1 rfl rfl rfl rfl
      fun _ => hgate
    have hgrow2 : Grow rx (some s.next) s (s1.put s.next { e1 with rt_key := some ((netmask.map (ad.masked dst)).getD dst) }) :=
      hgrow1.trans (Grow.put _)
    apply wp_seq_store he1
    rw [wp_bind, wp_get]
    split
    · refine wp_post (dropMade_spec hneutral hb (put_mem_same ..) hup1 fun g hg => hin1 e1 g he1 hg) ?_
      rintro r s3 ⟨rfl, hinv3, hgrow3, -⟩
      exact ⟨hinv3, (by simp), (hgrow2.trans hgrow3).fresh hfree⟩
    · rename_i tree htree
      rw [wp_bind, wp_modify]
      have hmap := rx.add_mem _ _ _ _ _ htree
      refine wp_post (install_spec ifa netmask ret_nrt hneutral hb (put_mem_same ..) hgate hmap) ?_
      rintro r s3 ⟨rfl, hinv3, hin3, hgrow3⟩
      refine ⟨hinv3, fun j hj => ?_, (hgrow2.trans hgrow3).fresh hfree⟩
      obtain rfl := Except.ok.inj hj
      exact hin3

theorem Inv.in_tree (h : Inv rx base s refs bld x) (hi : i ∈ rx.ids s.tree) :
    i ∉ bld ∧ ∃ e f g, s.mem i = some e ∧ e.up = true ∧ e.rt_ifa = some f ∧ e.rt_gateway = some g := by
  obtain ⟨e, he, hup, hifa⟩ := (h.place i).tree hi
  obtain ⟨f, hf⟩ := Option.isSome_iff_exists.1 hifa
  obtain ⟨g, hg⟩ := Option.isSome_iff_exists.1 ((h.place i).gate e he hifa)
  exact ⟨fun hb => ((h.place i).made hb).1 hi, e, f, g, he, hup, hf, hg⟩

/-- `RTM_RESOLVE` of an entry with an interface address. -/
theorem resolve_spec (hk : Keeps rx base call) (dst gateway : A) (netmask : Option A) (flags : Flags)
    (h : Inv rx base s refs bld none) (hi : s.mem i = some e) (hifa : e.rt_ifa.isSome) :
    wp (rtrequest rx ad malloc ifs call .resolve dst gateway netmask flags (some (some i))) (fun r s' =>
      Inv rx base s' (returned true r ++ refs) bld none ∧ (∀ j, r = .ok j → j ∈ rx.ids s'.tree) ∧ Grow rx none s s') Excused s := by
  obtain ⟨f, hf⟩ := Option.isSome_iff_exists.1 hifa
  obtain ⟨g, hg⟩ := Option.isSome_iff_exists.1 ((h.place i).gate e hi hifa)
  unfold rtrequest
  rw [wp_ite]
  refine ⟨fun _ => ⟨h, (by simp), Grow.refl _ _⟩, fun _ => ?_⟩
  simp only [Option.join_some]
  apply wp_seq_load hi
  simp only [hf, hg]
  refine wp_seq (makeroute_spec hk f _ dst g _ true h) ?_
  rintro r s1 ⟨hinv, hin, hgrow⟩
  cases r with
  | error err => exact ⟨hinv, hin, hgrow⟩
  | ok j =>
    obtain ⟨n, hn⟩ := hgrow.entries i e (by simp) hi
    obtain ⟨d, hd, -⟩ := (hinv.place j).tree (hin j rfl)
    unfold copyMetrics
    apply wp_seq_load hn
    apply wp_seq_load hd
    exact ⟨hinv, hin, hgrow⟩

theorem ifaIfwithroute_spec (hk : Keeps rx base call) (flags : Flags) (dst gateway : A) (h : Inv rx base s refs bld none) :
    wp (ifaIfwithroute ifs call flags dst gateway) (fun _ s' => Inv rx base s' refs bld none ∧ Grow rx none s s') Excused s := by
  unfold ifaIfwithroute
  simp only
  split
  · exact ⟨h, Grow.refl _ _⟩
  · refine wp_seq (hk dst false s refs bld h) ?_
    rintro r s1 ⟨hinv, hin, hgrow⟩
    cases r with
    | none => exact ⟨hinv, hgrow⟩
    | some j =>
      obtain ⟨-, d, f, -, hd, hup, hf, -⟩ := hinv.in_tree (hin j rfl)
      simp only
      apply wp_seq_addRef hd
      apply wp_seq_load (put_mem_same ..)
      exact ⟨hinv.release hd (.inl hup), hgrow.trans ((frame_put hd _).grow hd hup)⟩

theorem add_spec (hk : Keeps rx base call) (dst gateway : A) (netmask : Option A) (flags : Flags) (ret_nrt : Option (Option Nat))
    (h : Inv rx base s refs bld none) :
    wp (rtrequest rx ad malloc ifs call .add dst gateway netmask flags ret_nrt) (fun r s' =>
      Inv rx base s' (returned ret_nrt.isSome r ++ refs) bld none ∧ (∀ j, r = .ok j → j ∈ rx.ids s'.tree) ∧ Grow rx none s s')
      Excused s := by
  unfold rtrequest
  rw [wp_ite]
  refine ⟨fun _ => ⟨h, (by simp), Grow.refl _ _⟩, fun _ => ?_⟩
  simp only
  refine wp_seq (ifaIfwithroute_spec hk flags dst gateway h) ?_
  rintro ifa s1 ⟨hinv, hgrow⟩
  cases ifa with
  | none => exact ⟨hinv, (by simp), hgrow⟩
  | some f =>
    refine wp_post (makeroute_spec hk f flags dst gateway _ _ hinv) ?_
    rintro r s2 ⟨hinv2, hin2, hgrow2⟩
    exact ⟨hinv2, hin2, hgrow.trans hgrow2⟩

/-- `rtalloc1`, by induction on the depth of its recursion. -/
theorem rtalloc1_keeps (fuel : Nat) : Keeps rx base (rtalloc1 rx ad malloc ifs fuel) := by
  induction fuel with
  | zero => exact fun _ _ _ _ _ _ => .inr rfl
  | succ fuel ih =>
    intro dst report s refs bld h
    unfold rtalloc1
    rw [wp_bind, wp_get]
    split
    · exact ⟨h, (by simp), Grow.refl _ _⟩
    · rename_i i hmatch
      have hin : i ∈ rx.ids s.tree := by
        split at hmatch
        · exact rx.match_mem _ _ _ hmatch
        · cases hmatch
      obtain ⟨hb, e, f, g, he, hup, hf, -⟩ := h.in_tree hin
      -- The entry found, with one more reference.
      have hfound : ∀ s' n, Inv rx base s' refs bld none → s'.mem i = some { e with rt_refcnt := n } → i ∈ rx.ids s'.tree →
          Grow rx none s s' → wp (do addRef i 1; pure (some i) : RtM A F T (Option Nat)) (fun r s' =>
            Inv rx base s' (r.toList ++ refs) bld none ∧ (∀ j ∈ r, j ∈ rx.ids s'.tree) ∧ Grow rx none s s') Excused s' := by
        intro s' n hinv hi' hin' hgrow
        apply wp_seq_addRef hi'
        refine ⟨hinv.hold hi' hb, fun j hj => ?_, hgrow.trans ((frame_put hi' _).grow hi' hup)⟩
        obtain rfl := Option.some.inj hj
        exact hin'
      apply wp_seq_load he
      rw [wp_ite]
      constructor
      · intro _
        refine wp_seq (resolve_spec ih dst dst none _ h he (by rw [hf]; rfl)) ?_
        rintro r s1 ⟨hinv, hin1, hgrow⟩
        cases r with
        | error err =>
          obtain ⟨n, hn⟩ := hgrow.entries i e (by simp) he
          exact hfound s1 n hinv hn (hgrow.tree i hin) hgrow
        | ok j =>
          obtain ⟨-, d, -, -, hd, -⟩ := hinv.in_tree (hin1 j rfl)
          simp only
          apply wp_seq_load hd
          refine ⟨hinv, fun k hk => ?_, hgrow⟩
          obtain rfl := Option.some.inj hk
          exact hin1 j rfl
      · exact fun _ => hfound s e.rt_refcnt h he hin (Grow.refl _ _)

/-! ## Deletion -/

/-- An entry was taken out of the tree, and may have no reference. -/
structure Loose (rx : Radix A T) (base : F → Nat) (s : Routes A F T) (refs bld : List Nat) (i : Nat) (e : Rtentry A F) : Prop where
  inv : Inv rx base { s with rttrash := s.rttrash - 1 } refs bld (some i)
  mem : s.mem i = some e
  down : e.up = false
  gwroute : e.rt_gwroute = none
  ifa : e.rt_ifa.isSome

theorem Loose.settled (h : Loose rx base s refs bld i e) (hpos : 0 < e.rt_refcnt) : Inv rx base s refs bld none := by
  have hcount := (h.inv.place i).count e h.mem
  have hplaced : Placed rx { s with rttrash := s.rttrash - 1 } refs bld (some i) i e := .inr ⟨h.down, by omega, h.gwroute, h.ifa⟩
  have hback := h.inv.back_in_line h.mem h.gwroute hplaced
  have hone : dead none i e = 1 := by simp [dead, h.down]
  rw [hone] at hback
  have hsame : ({ s with rttrash := s.rttrash - 1 + (1 : Nat) } : Routes A F T) = s := by simp
  exact hsame ▸ hback

theorem Loose.hold (h : Loose rx base s refs bld i e) :
    Inv rx base (s.put i { e with rt_refcnt := e.rt_refcnt + 1 }) (i :: refs) bld none := by
  have hb : i ∉ bld := by
    intro hb
    obtain ⟨-, -, d, hd, hup, -⟩ := (h.inv.place i).made hb
    obtain rfl := Option.some.inj (hd.symm.trans h.mem)
    rw [h.down] at hup
    cases hup
  have hcount := (h.inv.place i).count e h.mem
  have hloose : Loose rx base (s.put i { e with rt_refcnt := e.rt_refcnt + 1 }) (i :: refs) bld i { e with rt_refcnt := e.rt_refcnt + 1 } :=
    ⟨h.inv.hold h.mem hb, put_mem_same .., h.down, h.gwroute, h.ifa⟩
  exact hloose.settled (by show 0 < e.rt_refcnt + 1; omega)

theorem Loose.settle {α : Type} {r : α} (h : Loose rx base s refs bld i e) :
    wp (if e.rt_refcnt ≤ 0 then do addRef i 1; rtfree rx i; pure r else pure r : RtM A F T α)
      (fun a s' => a = r ∧ Inv rx base s' refs bld none) Excused s := by
  rw [wp_ite]
  constructor
  · intro _
    apply wp_seq_addRef h.mem
    refine wp_seq (rtfree_spec h.hold (by simp)) ?_
    rintro - s1 ⟨hinv, -⟩
    exact ⟨rfl, hinv⟩
  · exact fun hpos => ⟨rfl, h.settled (by omega)⟩

/-- The entry that is deleted is not its own gateway, or has another reference. -/
def DeleteOk (rx : Radix A T) (s : Routes A F T) (dst : A) (netmask : Option A) : Prop :=
  ∀ i t e, rx.deladdr s.tree dst netmask = some (i, t) → s.mem i = some e → e.rt_gwroute = some i → 1 < e.rt_refcnt

/-- `RTM_DELETE` -/
theorem rtdelete_spec (dst : A) (netmask : Option A) (ret_nrt : Bool) (h : Inv rx base s refs bld none) (hok : DeleteOk rx s dst netmask) :
    wp (rtdelete rx dst netmask ret_nrt) (fun r s' => match r with
      | .error _ => s' = s
      | .ok i => if ret_nrt then ∃ e, Loose rx base s' refs bld i e else Inv rx base s' refs bld none) Excused s := by
  unfold rtdelete
  rw [wp_bind, wp_get]
  split
  · rfl
  · rename_i i tree hdel
    obtain ⟨hin, htree⟩ := rx.del_mem _ _ _ _ _ hdel
    obtain ⟨hb, e, f, g, he, hup, hf, hg⟩ := h.in_tree hin
    rw [wp_bind, wp_modify, wp_bind]
    refine wp_store (by exact he) ?_
    have hline : Inv rx base (s.set i { e with up := false } tree s.rttrash) (e.rt_gwroute.toList ++ refs) bld (some i) := by
      apply (h.take_pointer he hup).set_line he hb
      · exact fun j hj => (htree j).trans (and_iff_left hj)
      · exact fun ht => absurd rfl ((htree i).1 ht).2
      · rfl
      · rfl
      · rfl
    refine wp_seq (dropGate_line (e := { e with up := false }) hline (set_mem_same ..) hb fun hself => .inr (hok i tree e hdel he hself)) ?_
    rintro - s1 ⟨hinv, -, n, hn⟩
    apply wp_seq_load hn
    rw [wp_bind, wp_modify]
    have hloose : Loose rx base { s1 with rttrash := s1.rttrash + 1 } refs bld i
        { e with up := false, rt_gwroute := none, rt_refcnt := n } := by
      refine ⟨?_, hn, rfl, rfl, by rw [hf]; rfl⟩
      have hsame : ({ s1 with rttrash := s1.rttrash + 1 - 1 } : Routes A F T) = s1 := by simp
      exact hsame.symm ▸ hinv
    rw [wp_ite]
    constructor
    · intro hret
      show if ret_nrt then _ else _
      rw [if_pos hret]
      exact ⟨_, hloose⟩
    · intro hret
      refine wp_mono hloose.settle ?_ fun _ _ hE => hE
      rintro r s2 ⟨rfl, hinv2⟩
      show if ret_nrt then _ else _
      rw [if_neg hret]
      exact hinv2

end Gateway

end BsdKernel.Route
