import BsdKernel.Net.RouteOps
/-!
# The callers keep the counts

`rtalloc`, `rtredirect` and `rtinit`. A request that fails leaves all counts as they were, unless it made an entry for its gateway
before it found its own in the tree (`rtrequest_same`).
-/

set_option linter.unusedSectionVars false

namespace BsdKernel.Route

open Lib Lib.Cmd

variable {A F T : Type} [DecidableEq F]

/-! ## The callers -/

section Callers
variable {rx : Radix A T} {base : F → Nat} {s : Routes A F T} {refs bld : List Nat} {i : Nat}
  {ad : Addrs A} {malloc : Nat → Bool} {ifs : Ifs A F} {call : Rtalloc1 A F T}

theorem rtalloc_spec (hk : Keeps rx base call) (ro_rt : Option Nat) (dst : A) (hro : ∀ i ∈ ro_rt, i ∈ refs) (h : Inv rx base s refs bld none) :
    wp (rtalloc call ro_rt dst) (fun r s' => Inv rx base s' (r.join.toList ++ refs) bld none) Excused s := by
  have hnew : wp (call dst true >>= fun rt => pure (some rt)) (fun r s' => Inv rx base s' (r.join.toList ++ refs) bld none) Excused s := by
    refine wp_seq (hk dst true s refs bld h) ?_
    rintro r s1 ⟨hinv, -⟩
    exact hinv
  unfold rtalloc
  cases ro_rt with
  | none => exact hnew
  | some i =>
    obtain ⟨e, he⟩ := h.referred (hro i rfl)
    simp only
    apply wp_seq_load he
    rw [wp_ite]
    exact ⟨fun _ => h, fun _ => hnew⟩

theorem rtSetgate_tree (hk : Keeps rx base call) (gate : A) (hi : i ∈ rx.ids s.tree) (h : Inv rx base s refs bld none) :
    wp (rtSetgate rx ad malloc call i gate) (fun _ s' => Inv rx base s' refs bld none) Excused s := by
  obtain ⟨hb, e, -, -, he, hup, -⟩ := h.in_tree hi
  refine wp_post (rtSetgate_spec hk gate h he hup fun hc => absurd hc hb) ?_
  rintro - s1 ⟨hinv, -⟩
  exact hinv

theorem addGateway_spec (hk : Keeps rx base call) (dst gateway : A) (netmask : Option A) (flags : Flags)
    (h : Inv rx base s refs bld none) :
    wp (do
      let r ← rtrequest rx ad malloc ifs call .add dst gateway netmask { flags with gateway := true } none
      match r with
      | .error e => pure (some e)
      | .ok _ => pure none : RtM A F T (Option Errno)) (fun _ s' => Inv rx base s' refs bld none) Excused s := by
  refine wp_seq (add_spec hk dst gateway netmask _ none h) ?_
  rintro r s1 ⟨hinv, -⟩
  cases r with
  | error err => exact hinv
  | ok j => exact hinv

theorem redirectRoute_spec (hk : Keeps rx base call) (rt : Option Nat) (dst gateway : A) (netmask : Option A) (flags : Flags)
    (hrt : ∀ i ∈ rt, i ∈ rx.ids s.tree) (h : Inv rx base s refs bld none) :
    wp (redirectRoute rx ad malloc ifs call rt dst gateway netmask flags) (fun _ s' => Inv rx base s' refs bld none) Excused s := by
  unfold redirectRoute
  cases rt with
  | none => exact addGateway_spec hk dst gateway netmask flags h
  | some i =>
    obtain ⟨-, e, -, -, he, -⟩ := h.in_tree (hrt i rfl)
    simp only
    apply wp_seq_load he
    rw [wp_ite]
    refine ⟨fun _ => addGateway_spec hk dst gateway netmask flags h, fun _ => ?_⟩
    rw [wp_ite]
    refine ⟨fun _ => ?_, fun _ => h⟩
    rw [wp_ite]
    refine ⟨fun _ => addGateway_spec hk dst gateway netmask flags h, fun _ => ?_⟩
    rw [wp_bind]
    exact wp_mono (rtSetgate_tree hk gateway (hrt i rfl) h) (fun _ _ hinv => hinv) fun _ _ hE => hE

theorem rtredirect_spec (hk : Keeps rx base call) (dst gateway : A) (netmask : Option A) (flags : Flags) (src : A) (rtp : Bool)
    (h : Inv rx base s refs bld none) :
    wp (rtredirect rx ad malloc ifs call dst gateway netmask flags src rtp)
      (fun r s' => Inv rx base s' (r.2.toList ++ refs) bld none) Excused s := by
  unfold rtredirect
  cases ifs.ifwithnet gateway with
  | none => exact h
  | some ifa =>
    simp only
    refine wp_seq (hk dst false s refs bld h) ?_
    rintro rt s1 ⟨hinv, hin, -⟩
    have hload : ∀ Q : Option (Rtentry A F) → Routes A F T → Prop, (∀ e, Q e s1) → wp (loadSome rt) Q Excused s1 := by
      intro Q hQ
      cases rt with
      | none => exact hQ none
      | some i =>
        obtain ⟨-, e, -, -, he, -⟩ := hinv.in_tree (hin i rfl)
        unfold loadSome
        rw [wp_bind]
        exact wp_load he (hQ (some e))
    rw [wp_bind]
    apply hload
    intro e
    have hbody : wp (redirectBody rx ad malloc ifs call (redirectError ad ifs e ifa gateway src flags) rt dst gateway netmask flags)
        (fun _ s' => Inv rx base s' (rt.toList ++ refs) bld none) Excused s1 := by
      unfold redirectBody
      split
      · exact hinv
      · exact redirectRoute_spec hk rt dst gateway netmask flags hin hinv
    rw [wp_bind]
    refine wp_mono hbody ?_ fun _ _ hE => hE
    rintro error s2 hinv2
    cases rt with
    | none => exact hinv2
    | some i =>
      simp only
      rw [wp_ite]
      refine ⟨fun _ => hinv2, fun _ => ?_⟩
      refine wp_seq (rtfree_spec hinv2 (by simp)) ?_
      rintro - s3 ⟨hinv3, -⟩
      exact hinv3

theorem put_put (s : Routes A F T) (i : Nat) (e e' : Rtentry A F) : (s.put i e).put i e' = s.put i e' := by
  unfold Routes.put
  simp only [Function.update_idem]

theorem put_self {e : Rtentry A F} (h : s.mem i = some e) : s.put i e = s := set_self h

/-- The best match of an address is a cloning route. -/
def Clones (rx : Radix A T) (ad : Addrs A) (s : Routes A F T) (dst : A) : Prop :=
  ∃ i e, ad.table dst = true ∧ rx.matchaddr s.tree dst = some i ∧ s.mem i = some e ∧ e.rt_flags.cloning = true

/-- Without a clone, `rtalloc1` takes a reference and does nothing else. -/
theorem rtalloc1_plain (fuel : Nat) (dst : A) (report : Bool) (h : Inv rx base s refs bld none) (hplain : report = false ∨ ¬Clones rx ad s dst) :
    wp (rtalloc1 rx ad malloc ifs fuel dst report) (fun r s' => (r = none ∧ s' = s) ∨
      ∃ i e, r = some i ∧ i ∈ rx.ids s.tree ∧ s.mem i = some e ∧ s' = s.put i { e with rt_refcnt := e.rt_refcnt + 1 }) Excused s := by
  cases fuel with
  | zero => exact .inr rfl
  | succ fuel =>
    unfold rtalloc1
    rw [wp_bind, wp_get]
    split
    · exact .inl ⟨rfl, rfl⟩
    · rename_i i hmatch
      obtain ⟨htable, hmatch⟩ : ad.table dst = true ∧ rx.matchaddr s.tree dst = some i := by
        split at hmatch
        · rename_i ht
          exact ⟨ht, hmatch⟩
        · cases hmatch
      have hin := rx.match_mem _ _ _ hmatch
      obtain ⟨-, e, -, -, he, -⟩ := h.in_tree hin
      apply wp_seq_load he
      rw [wp_ite]
      constructor
      · intro hclone
        rw [Bool.and_eq_true] at hclone
        rcases hplain with hno | hno
        · rw [hno] at hclone
          cases hclone.1
        · exact absurd ⟨i, e, htable, hmatch, he, hclone.2⟩ hno
      · intro _
        apply wp_seq_addRef he
        exact .inr ⟨i, e, rfl, hin, he, rfl⟩

theorem rtinitCheck_spec (fuel : Nat) (ifa : F) (dst : A) (flags : Flags) (h : Inv rx base s refs bld none) :
    wp (rtinitCheck (rtalloc1 rx ad malloc ifs fuel) ifa dst flags) (fun _ s' => s' = s) Excused s := by
  unfold rtinitCheck
  refine wp_seq (rtalloc1_plain fuel dst false h (.inl rfl)) ?_
  rintro r s1 (⟨rfl, rfl⟩ | ⟨i, e, rfl, -, he, rfl⟩)
  · rfl
  · simp only
    apply wp_seq_addRef (put_mem_same ..)
    apply wp_seq_load (put_mem_same ..)
    have hback : (s.put i { e with rt_refcnt := e.rt_refcnt + 1 }).put i { e with rt_refcnt := e.rt_refcnt + 1 + -1 } = s := by
      rw [put_put, Int.add_neg_cancel_right]
      exact put_self he
    rw [wp_ite]
    exact ⟨fun _ => hback, fun _ => hback⟩

/-- The route that `rtinit` deletes. -/
def InitDeleteOk (rx : Radix A T) (ad : Addrs A) (ifs : Ifs A F) (s : Routes A F T) (ifa : F) (flags : Flags) : Prop :=
  DeleteOk rx s (deldst ad ifs ifa flags) (if (flags.or (ifs.ifa_flags ifa)).host then none else ifs.ifa_netmask ifa)

/-- `rtrequest(RTM_DELETE)` of that route: it is out of the tree, or nothing has changed. -/
theorem initDelete_spec (fuel : Nat) (ifa : F) (flags : Flags) (h : Inv rx base s refs bld none) (hok : InitDeleteOk rx ad ifs s ifa flags) :
    wp (rtrequest rx ad malloc ifs (rtalloc1 rx ad malloc ifs fuel) .delete (deldst ad ifs ifa flags) (ifs.ifa_addr ifa)
      (ifs.ifa_netmask ifa) (flags.or (ifs.ifa_flags ifa)) (some none)) (fun r s' => match r with
        | .error _ => s' = s
        | .ok i => ∃ e, Loose rx base s' refs bld i e) Excused s := by
  unfold rtrequest
  rw [wp_ite]
  refine ⟨fun _ => rfl, fun _ => ?_⟩
  refine wp_post (rtdelete_spec _ _ true h hok) ?_
  intro r s1 hr
  cases r with
  | error err => exact hr
  | ok i => simpa using hr

theorem rtinitDelete_spec (fuel : Nat) (ifa : F) (flags : Flags) (h : Inv rx base s refs bld none) (hok : InitDeleteOk rx ad ifs s ifa flags) :
    wp (rtinitDelete rx ad malloc ifs (rtalloc1 rx ad malloc ifs fuel) ifa flags) (fun _ s' => Inv rx base s' refs bld none) Excused s := by
  unfold rtinitDelete
  simp only
  refine wp_seq (rtinitCheck_spec fuel ifa _ flags h) ?_
  rintro error s1 rfl
  cases error with
  | some error => exact h
  | none =>
    simp only
    refine wp_seq (initDelete_spec fuel ifa flags h hok) ?_
    intro r s2 hr
    cases r with
    | error err => exact (show s2 = s1 from hr) ▸ h
    | ok i =>
      obtain ⟨e, hloose⟩ := hr
      simp only
      apply wp_seq_load hloose.mem
      refine wp_post (hloose.settle (r := none)) ?_
      rintro a s3 ⟨-, hinv⟩
      exact hinv

/-- An entry of the tree is given from one interface address to another. -/
theorem change_ifa {e : Rtentry A F} {f ifa : F} {o : Option F} {α : Type} {r : α}
    (ho : o = some f) (h : Inv rx base s refs bld none) (hin : i ∈ rx.ids s.tree) (he : s.mem i = some e)
    (hf : e.rt_ifa = some f) (hne : f ≠ ifa) :
    wp (do
      IFAFREE o
      store i fun e => { e with rt_ifa := some ifa, rt_ifp := ifs.ifa_ifp ifa }
      ifaHold ifa
      let _ ← load i
      pure r : RtM A F T α) (fun _ s' => Inv rx base s' refs bld none) Excused s := by
  subst ho
  obtain ⟨hb, d, _, g, hd, hup, -, hg⟩ := h.in_tree hin
  obtain rfl := Option.some.inj (hd.symm.trans he)
  have hpos := le_sum (f := holds f) (h.next he) he
  have hone : holds f i d = 1 := if_pos hf
  let e' : Rtentry A F := { d with rt_ifa := some ifa, rt_ifp := ifs.ifa_ifp ifa }
  have hnew : holds ifa i e' = 1 := if_pos rfl
  have hold : holds ifa i d = 0 := if_neg fun hc => hne (Option.some.inj (hf.symm.trans hc))
  have hleft : holds f i e' = 0 := if_neg fun hc => hne (Option.some.inj hc).symm
  rw [wp_bind]
  refine wp_IFAFREE (by exact h.ifa f) (by omega) ?_
  refine wp_seq_store (by exact he) ?_
  rw [wp_bind]
  have hother : Function.update s.ifa_refcnt f (some (((base f + s.sum (holds f) : Nat) : Int) - 1)) ifa =
      some ((base ifa + s.sum (holds ifa) : Nat) : Int) := by
    rw [Function.update_of_ne (Ne.symm hne)]
    exact h.ifa ifa
  refine wp_ifaHold (by exact hother) ?_
  refine wp_seq_load (by exact put_mem_same ..) ?_
  apply h.set_ifa he e'
  · rfl
  · rfl
  · exact hin
  · exact fun _ _ => Iff.rfl
  · exact fun _ _ => Iff.rfl
  · exact hb
  · rfl
  · rfl
  · exact hup
  · exact hup
  · rfl
  · show d.rt_gateway.isSome = true
    rw [hg]
    rfl
  · rfl
  · intro k
    show ∃ n : Nat, Function.update (Function.update s.ifa_refcnt f _) ifa _ k = some (n : Int) ∧ _
    by_cases hk : k = ifa
    · subst hk
      refine ⟨base k + s.sum (holds k) + 1, ?_, ?_⟩
      · rw [Function.update_self]
        rfl
      · omega
    · rw [Function.update_of_ne hk]
      by_cases hkf : k = f
      · subst hkf
        refine ⟨base k + s.sum (holds k) - 1, ?_, ?_⟩
        · rw [Function.update_self]
          congr 1
          omega
        · omega
      · refine ⟨base k + s.sum (holds k), ?_, ?_⟩
        · rw [Function.update_of_ne hkf]
          exact h.ifa k
        · have hkold : holds k i d = 0 := if_neg fun hc => hkf (Option.some.inj (hc.symm.trans hf))
          have hknew : holds k i e' = 0 := if_neg fun hc => hk (Option.some.inj hc).symm
          omega

theorem rtinitAdd_spec (hk : Keeps rx base call) (ifa : F) (flags : Flags) (h : Inv rx base s refs bld none) :
    wp (rtinitAdd rx ad malloc ifs call ifa flags) (fun _ s' => Inv rx base s' refs bld none) Excused s := by
  unfold rtinitAdd
  simp only
  refine wp_seq (add_spec hk _ _ _ _ (some none) h) ?_
  rintro r s1 ⟨hinv, hin, -⟩
  cases r with
  | error err => exact hinv
  | ok i =>
    obtain ⟨-, e, f, -, he, hup, hf, -⟩ := hinv.in_tree (hin i rfl)
    have hrel : Inv rx base (s1.put i { e with rt_refcnt := e.rt_refcnt + -1 }) refs bld none := hinv.release he (.inl hup)
    simp only
    apply wp_seq_addRef he
    apply wp_seq_load (put_mem_same ..)
    rw [wp_ite]
    refine ⟨fun hwrong => ?_, fun _ => hrel⟩
    exact change_ifa hf hrel (hin i rfl) (put_mem_same ..) hf fun hc => hwrong (by rw [hf, hc])

/-! ## Requests that fail -/

/-- All counts are as they were. -/
structure SameCounts (s s' : Routes A F T) : Prop where
  mem : s'.mem = s.mem
  tree : s'.tree = s.tree
  rttrash : s'.rttrash = s.rttrash
  ifa_refcnt : s'.ifa_refcnt = s.ifa_refcnt

section Errors
variable {s' s'' : Routes A F T} {x : Option Nat} {e e' : Rtentry A F}

theorem sum_range (h : Inv rx base s refs bld x) (f : Nat → Rtentry A F → Nat) (n : Nat) :
    tally (fun j => ((s.mem j).map (f j)).getD 0) (List.range (s.next + n)) = s.sum f := by
  induction n with
  | zero => rfl
  | succ n ih =>
    have hnone : s.mem (s.next + n) = none := by
      cases hm : s.mem (s.next + n) with
      | none => rfl
      | some e => exact absurd (h.next hm) (by omega)
    rw [← Nat.add_assoc, List.range_succ, tally_append, ih, tally_cons, hnone]
    rfl

/-- The counts are determined by the entries, the references and the pointers. -/
theorem same_of_noNew (h : Inv rx base s refs bld none) (h' : Inv rx base s' refs bld none) (hgrow : Grow rx none s s')
    (hnew : NoNew none s s') : SameCounts s s' := by
  have hplace : ∀ j, (∃ e n, s.mem j = some e ∧ s'.mem j = some { e with rt_refcnt := n }) ∨ (s.mem j = none ∧ s'.mem j = none) := by
    intro j
    cases hj : s.mem j with
    | none => exact .inr ⟨rfl, hnew.mem j (by simp) hj⟩
    | some e =>
      obtain ⟨n, hn⟩ := hgrow.entries j e (by simp) hj
      exact .inl ⟨e, n, rfl, hn⟩
  have hsum : ∀ f : Nat → Rtentry A F → Nat, (∀ j e n, f j { e with rt_refcnt := n } = f j e) → s'.sum f = s.sum f := by
    intro f hf
    rw [← sum_range h f (s'.next - s.next), ← sum_range h' f (s.next - s'.next)]
    rw [show s'.next + (s.next - s'.next) = s.next + (s'.next - s.next) by omega]
    refine tally_congr fun j _ => ?_
    rcases hplace j with ⟨e, n, he, he'⟩ | ⟨hj, hj'⟩
    · rw [he, he']
      exact hf j e n
    · rw [hj, hj']
  have hnum : ∀ j, s'.number refs none j = s.number refs none j := by
    intro j
    unfold Routes.number
    rw [hsum (points none j) fun _ _ _ => rfl]
  refine ⟨?_, hnew.tree, ?_, ?_⟩
  · funext j
    rcases hplace j with ⟨e, n, he, he'⟩ | ⟨hj, hj'⟩
    · have hold := (h.place j).count e he
      have hcount := (h'.place j).count _ he'
      rw [hnum, ← hold] at hcount
      rw [he, he', show n = e.rt_refcnt from hcount]
    · rw [hj, hj']
  · rw [h.trash, h'.trash, hsum (dead none) fun _ _ _ => rfl]
  · funext f
    rw [h.ifa f, h'.ifa f, hsum (holds f) fun _ _ _ => rfl]

/-- Whether a search clones depends on the tree and its entries. -/
theorem clones_congr {dst : A} (htree : s'.tree = s.tree) (hmem : ∀ j ∈ rx.ids s.tree, ∀ e, s'.mem j = some e →
    ∃ e', s.mem j = some e' ∧ e'.rt_flags = e.rt_flags) (h : Clones rx ad s' dst) : Clones rx ad s dst := by
  obtain ⟨j, e, htable, hmatch, he, hclone⟩ := h
  rw [htree] at hmatch
  obtain ⟨e', he', hflags⟩ := hmem j (rx.match_mem _ _ _ hmatch) e he
  exact ⟨j, e', htable, hmatch, he', hflags ▸ hclone⟩

theorem dropGate_none {Q : Unit → Routes A F T → Prop} (hi : s.mem i = some e) (hgw : e.rt_gwroute = none) (h : Q () s) :
    wp (dropGate rx i) Q Excused s := by
  unfold dropGate
  apply wp_seq_load hi
  rw [hgw]
  exact h

/-- `rt_setgate` of an entry that is being made makes no others, if it fails or its gateway is not cloned. -/
theorem rtSetgate_noNew (fuel : Nat) (gate : A) (h : Inv rx base s refs bld none) (hb : i ∈ bld) (hi : s.mem i = some e)
    (hgw : e.rt_gwroute = none) :
    wp (rtSetgate rx ad malloc (rtalloc1 rx ad malloc ifs fuel) i gate) (fun failed s' =>
      failed = true ∨ e.rt_flags.gateway = false ∨ ¬Clones rx ad s gate → NoNew (some i) s s') Excused s := by
  obtain ⟨hnot, -, d, hd, hup, hifa⟩ := (h.place i).made hb
  obtain rfl := Option.some.inj (hd.symm.trans hi)
  unfold rtSetgate
  apply wp_seq_load hi
  rw [wp_bind]
  apply wp_gateRoom
  intro room n
  have hasked := h.asked n
  rw [wp_ite]
  refine ⟨fun _ _ => ⟨fun _ _ hj => hj, rfl⟩, fun _ => ?_⟩
  refine wp_seq_store (by exact hi) ?_
  have hneutral := hasked.neutral { d with rt_gateway := some gate } hi rfl rfl rfl rfl fun _ => rfl
  have hput : NoNew (some i) s (({ s with asked := n } : Routes A F T).put i { d with rt_gateway := some gate }) := by
    refine ⟨fun j hx hj => ?_, rfl⟩
    rw [← hj]
    exact put_mem_other fun hc => hx (congrArg some hc.symm)
  rw [wp_bind]
  refine dropGate_none (put_mem_same ..) (by exact hgw) ?_
  apply wp_seq_load (put_mem_same ..)
  rw [wp_ite]
  refine ⟨fun hgate => ?_, fun _ _ => hput⟩
  by_cases hplain : ¬Clones rx ad s gate
  · have hplain' : ¬Clones rx ad (({ s with asked := n } : Routes A F T).put i { d with rt_gateway := some gate }) gate := by
      intro hc
      refine hplain (clones_congr ?_ ?_ hc)
      · rfl
      · intro j hj c hc
        have hne : j ≠ i := fun he => hnot (he ▸ hj)
        rw [put_mem_other hne] at hc
        exact ⟨c, hc, rfl⟩
    refine wp_seq (rtalloc1_plain fuel gate true hneutral (.inr hplain')) ?_
    rintro r s2 (⟨rfl, rfl⟩ | ⟨j, c, rfl, hj, hc, rfl⟩)
    · apply wp_seq_store (put_mem_same ..)
      exact fun _ => hput.trans (NoNew.put (put_mem_same ..) _)
    · have hne : i ≠ j := fun he => hnot (he ▸ hj)
      refine wp_seq_store (by rw [put_mem_other hne]; exact put_mem_same ..) ?_
      exact fun _ => hput.trans ((NoNew.put hc _).trans (NoNew.put (by rw [put_mem_other hne]; exact put_mem_same ..) _))
  · -- The gateway is cloned, so that nothing is claimed.
    refine wp_seq (rtalloc1_keeps fuel gate true _ _ _ hneutral) ?_
    rintro r s2 ⟨-, -, hgrow⟩
    obtain ⟨k, hk⟩ := hgrow.entries i _ (by simp) (put_mem_same ..)
    apply wp_seq_store hk
    rintro (hc | hc | hc)
    · cases hc
    · rw [hgate] at hc
      cases hc
    · exact absurd hc hplain

/-- Entries that are made for the gateway stay when the request fails at the tree; without them nothing stays. -/
theorem makeroute_noNew (fuel : Nat) (ifa : F) (flags : Flags) (dst gateway : A) (netmask : Option A) (ret_nrt : Bool)
    (h : Inv rx base s refs bld none) :
    wp (makeroute rx ad malloc ifs (rtalloc1 rx ad malloc ifs fuel) (some ifa) flags dst gateway netmask ret_nrt) (fun r s' =>
      ∀ err, r = .error err → err ≠ .EEXIST ∨ flags.gateway = false ∨ ¬Clones rx ad s gateway → NoNew none s s') Excused s := by
  unfold makeroute
  rw [wp_bind]
  apply wp_rMalloc
  intro room
  have hasked := h.asked (s.asked + 1)
  rw [wp_ite]
  refine ⟨fun _ _ _ _ => ⟨fun _ _ hj => hj, rfl⟩, fun _ => ?_⟩
  obtain ⟨hadd, hb⟩ := hasked.add (e := ⟨none, none, none, flags, true, 0, false, none, none, none⟩) rfl rfl rfl rfl
  rw [wp_bind]
  apply wp_alloc
  let s0 : Routes A F T := { s.put s.next ⟨none, none, none, flags, true, 0, false, none, none, none⟩ with
    next := s.next + 1, asked := s.asked + 1 }
  have hnew0 : NoNew (some s.next) s s0 := by
    refine ⟨fun j hx hj => ?_, rfl⟩
    rw [← hj]
    exact put_mem_other fun hc => hx (congrArg some hc.symm)
  have hclones : ¬Clones rx ad s gateway → ¬Clones rx ad s0 gateway := by
    intro hno hc
    refine hno (clones_congr ?_ ?_ hc)
    · rfl
    · intro j hj c hc
      obtain ⟨d, hd, -⟩ := (h.place j).tree hj
      have hne : j ≠ s.next := Nat.ne_of_lt (h.next hd)
      have hsame : s0.mem j = s.mem j := put_mem_other hne
      exact ⟨c, hsame.symm.trans hc, rfl⟩
  -- What is left of the entry is freed.
  have hdone : ∀ s1 : Routes A F T, NoNew (some s.next) s s1 → s1.mem s.next = none → NoNew none s s1 := by
    intro s1 hnew hnone
    refine ⟨fun j _ hj => ?_, hnew.tree⟩
    by_cases hne : j = s.next
    · rw [hne]
      exact hnone
    · exact hnew.mem j (fun hc => hne (Option.some.inj hc).symm) hj
  rw [wp_bind]
  refine wp_mono (wp_and (rtSetgate_spec (rtalloc1_keeps fuel) gateway hadd (put_mem_same ..) rfl fun _ => rfl)
    (rtSetgate_noNew fuel gateway hadd (List.mem_cons_self ..) (put_mem_same ..) rfl)) ?_ fun _ _ hE => hE.1
  rintro failed s1 ⟨⟨hinv1, hgrow1, e1, he1, hup1, -, hgate1, -⟩, hnew1⟩
  obtain ⟨-, hin1⟩ := hgrow1 rfl
  rw [wp_ite]
  constructor
  · intro hfailed
    rw [wp_bind]
    apply wp_free he1
    intro _ _ _
    exact hdone _ ((hnew0.trans (hnew1 (.inl hfailed))).trans (NoNew.erase _ _)) (Function.update_self ..)
  · intro hfailed
    have hgate := hgate1 (by simpa using hfailed)
    have hneutral := hinv1.neutral { e1 with rt_key := some ((netmask.map (ad.masked dst)).getD dst) } he1 rfl rfl rfl rfl
      fun _ => hgate
    apply wp_seq_store he1
    rw [wp_bind, wp_get]
    split
    · refine wp_post (dropMade_spec hneutral hb (put_mem_same ..) hup1 fun g hg => hin1 e1 g he1 hg) ?_
      rintro r s3 ⟨rfl, -, -, hnew3, hnone⟩ err herr hplain
      obtain rfl := Except.error.inj herr
      have hplain' := hplain.resolve_left (absurd rfl)
      have hset := hnew1 (.inr (hplain'.imp_right hclones))
      have hput : NoNew (some s.next) s1 (s1.put s.next { e1 with rt_key := some ((netmask.map (ad.masked dst)).getD dst) }) :=
        NoNew.put he1 _
      exact hdone _ ((hnew0.trans hset).trans (hput.trans hnew3)) hnone
    · rename_i tree htree
      rw [wp_bind, wp_modify]
      have hmap := rx.add_mem _ _ _ _ _ htree
      refine wp_post (install_spec ifa netmask ret_nrt hneutral hb (put_mem_same ..) hgate hmap) ?_
      rintro r s3 ⟨rfl, -⟩ err herr
      cases herr

theorem ifaIfwithroute_same (fuel : Nat) (flags : Flags) (dst gateway : A) (h : Inv rx base s refs bld none) :
    wp (ifaIfwithroute ifs (rtalloc1 rx ad malloc ifs fuel) flags dst gateway) (fun _ s' => s' = s) Excused s := by
  unfold ifaIfwithroute
  simp only
  split
  · rfl
  · refine wp_seq (rtalloc1_plain fuel dst false h (.inl rfl)) ?_
    rintro r s1 (⟨rfl, rfl⟩ | ⟨j, e, rfl, -, he, rfl⟩)
    · rfl
    · simp only
      apply wp_seq_addRef (put_mem_same ..)
      apply wp_seq_load (put_mem_same ..)
      show (s.put j _).put j _ = s
      rw [put_put, Int.add_neg_cancel_right]
      exact put_self he

/-- The gateway of the entry to be made is looked up, and an entry is cloned for it. -/
def GateClones (rx : Radix A T) (ad : Addrs A) (s : Routes A F T) (req : Req) (gateway : A) (flags : Flags) (ret_nrt : Option (Option Nat)) :
    Prop :=
  match req with
  | .add => flags.gateway = true ∧ Clones rx ad s gateway
  | .delete => False
  | .resolve => ∃ i e g, ret_nrt = some (some i) ∧ s.mem i = some e ∧ e.rt_gateway = some g ∧ e.rt_flags.gateway = true ∧ Clones rx ad s g

/-- A request that fails leaves all counts as they were. -/
theorem rtrequest_same (malloc : Nat → Bool) (ifs : Ifs A F) (fuel : Nat) (req : Req) (dst gateway : A) (netmask : Option A) (flags : Flags) (ret_nrt : Option (Option Nat))
    (h : Inv rx base s refs bld none)
    (hret : req = .resolve → ∀ i, ret_nrt = some (some i) → ∃ e, s.mem i = some e ∧ e.rt_ifa.isSome)
    (hdel : req = .delete → DeleteOk rx s dst (if flags.host then none else netmask)) :
    wp (rtrequest rx ad malloc ifs (rtalloc1 rx ad malloc ifs fuel) req dst gateway netmask flags ret_nrt) (fun r s' =>
      ∀ err, r = .error err → err ≠ .EEXIST ∨ ¬GateClones rx ad s req gateway flags ret_nrt → SameCounts s s') Excused s := by
  -- What is left to show of a request that makes an entry.
  have hmake : ∀ (ifa : F) (fl : Flags) (gate : A) (mask : Option A) (ret : Bool),
      (¬GateClones rx ad s req gateway flags ret_nrt → fl.gateway = false ∨ ¬Clones rx ad s gate) →
      wp (makeroute rx ad malloc ifs (rtalloc1 rx ad malloc ifs fuel) (some ifa) fl dst gate mask ret) (fun r s' =>
        ∀ err, r = .error err → err ≠ .EEXIST ∨ ¬GateClones rx ad s req gateway flags ret_nrt → SameCounts s s') Excused s := by
    intro ifa fl gate mask ret hclones
    refine wp_mono (wp_and (makeroute_spec (rtalloc1_keeps fuel) ifa fl dst gate mask ret h) (makeroute_noNew fuel ifa fl dst gate mask ret h))
      ?_ fun _ _ hE => hE.1
    rintro r s1 ⟨⟨hinv, -, hgrow⟩, hnew⟩ err rfl hplain
    exact same_of_noNew h hinv hgrow (hnew err rfl (hplain.imp_right hclones))
  unfold rtrequest
  rw [wp_ite]
  refine ⟨fun _ _ _ _ => ⟨rfl, rfl, rfl, rfl⟩, fun _ => ?_⟩
  cases req with
  | add =>
    simp only
    refine wp_seq (ifaIfwithroute_same fuel flags dst gateway h) ?_
    rintro ifa s1 rfl
    cases ifa with
    | none => exact fun _ _ _ => ⟨rfl, rfl, rfl, rfl⟩
    | some ifa =>
      apply hmake
      intro hno
      by_cases hg : flags.gateway = true
      · exact .inr fun hc => hno ⟨hg, hc⟩
      · exact .inl (by simpa using hg)
  | delete =>
    refine wp_post (rtdelete_spec _ _ _ h (hdel rfl)) ?_
    rintro r s1 hr err rfl -
    obtain rfl : s1 = s := hr
    exact ⟨rfl, rfl, rfl, rfl⟩
  | resolve =>
    simp only
    cases hjoin : ret_nrt.join with
    | none => exact fun _ _ _ => ⟨rfl, rfl, rfl, rfl⟩
    | some i =>
      have hsome : ret_nrt = some (some i) := Option.join_eq_some_iff.1 hjoin
      obtain ⟨e, he, hifa⟩ := hret rfl i hsome
      obtain ⟨f, hf⟩ := Option.isSome_iff_exists.1 hifa
      obtain ⟨g, hg⟩ := Option.isSome_iff_exists.1 ((h.place i).gate e he hifa)
      simp only
      apply wp_seq_load he
      simp only [hf, hg]
      rw [wp_bind]
      refine wp_mono (wp_and (hmake f _ g _ true ?_) (makeroute_spec (rtalloc1_keeps fuel) f _ dst g _ true h)) ?_ fun _ _ hE => hE.1
      rotate_left
      · rintro r s1 ⟨hsame, hinv, hin, hgrow⟩
        cases r with
        | error err => exact hsame
        | ok j =>
          obtain ⟨n, hn⟩ := hgrow.entries i e (by simp) he
          obtain ⟨d, hd, -⟩ := (hinv.place j).tree (hin j rfl)
          unfold copyMetrics
          apply wp_seq_load hn
          apply wp_seq_load hd
          intro err herr
          cases herr
      intro hno
      by_cases hgw : e.rt_flags.gateway = true
      · exact .inr fun hc => hno ⟨i, e, g, hsome, he, hg, hgw, hc⟩
      · exact .inl (by simpa using hgw)

end Errors

end Callers

end BsdKernel.Route
