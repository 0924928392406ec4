import BsdKernel.Net.RouteCallers
/-!
# Runs of the routing code

Any calls of the functions, one after the other, on any interfaces and with any answers of the memory allocator. `refs` are
the references handed out and not given back. `route_runs`: while no entry is deleted that is its own gateway and has no other
reference, the counts are right in every state and no function touches what is free.
-/

set_option linter.unusedSectionVars false

namespace BsdKernel.Route

open Lib Lib.Cmd

/-! ## Calls -/

inductive Op (A F : Type)
  | rtalloc (ro_rt : Option Nat) (dst : A)
  | rtalloc1 (dst : A) (report : Bool)
  | rtfree (rt : Nat)
  | RTFREE (rt : Nat)
  | rtrequest (req : Req) (dst gateway : A) (netmask : Option A) (flags : Flags) (ret_nrt : Option (Option Nat))
  | rtSetgate (rt : Nat) (gate : A)
  | rtredirect (dst gateway : A) (netmask : Option A) (flags : Flags) (src : A) (rtp : Bool)
  | rtinitAdd (ifa : F) (flags : Flags)
  | rtinitDelete (ifa : F) (flags : Flags)
  | genmask (rt : Nat) (mask : Option A)

/-- An operation with the interfaces, the answers of the allocator, and the depth it is followed to. -/
structure Call (A F : Type) where
  op : Op A F
  ifs : Ifs A F
  malloc : Nat → Bool
  fuel : Nat

variable {A F T : Type} [DecidableEq F]

section System
variable (rx : Radix A T) (ad : Addrs A)

/-- `rtrequest`, and what its caller holds. After `RTM_DELETE` the caller counts the entry that is returned. -/
def request (call : Rtalloc1 A F T) (malloc : Nat → Bool) (ifs : Ifs A F) (req : Req) (dst gateway : A) (netmask : Option A) (flags : Flags)
    (ret_nrt : Option (Option Nat)) (refs : List Nat) : RtM A F T (List Nat) := do
  let r ← rtrequest rx ad malloc ifs call req dst gateway netmask flags ret_nrt
  match r with
  | .error _ => pure refs
  | .ok rt =>
    if ret_nrt.isSome then
      if req = .delete then do
        addRef rt 1
        pure (rt :: refs)
      else pure (rt :: refs)
    else pure refs

/-- The references after a call. -/
def perform (c : Call A F) (refs : List Nat) : RtM A F T (List Nat) :=
  let call := rtalloc1 rx ad c.malloc c.ifs c.fuel
  match c.op with
  | .rtalloc ro_rt dst => rtalloc call ro_rt dst >>= fun r => pure (r.join.toList ++ refs)
  | .rtalloc1 dst report => call dst report >>= fun r => pure (r.toList ++ refs)
  | .rtfree rt => rtfree rx rt >>= fun _ => pure (refs.erase rt)
  | .RTFREE rt => RTFREE rx rt >>= fun _ => pure (refs.erase rt)
  | .rtrequest req dst gateway netmask flags ret_nrt => request rx ad call c.malloc c.ifs req dst gateway netmask flags ret_nrt refs
  | .rtSetgate rt gate => rtSetgate rx ad c.malloc call rt gate >>= fun _ => pure refs
  | .rtredirect dst gateway netmask flags src rtp =>
    rtredirect rx ad c.malloc c.ifs call dst gateway netmask flags src rtp >>= fun r => pure (r.2.toList ++ refs)
  | .rtinitAdd ifa flags => rtinitAdd rx ad c.malloc c.ifs call ifa flags >>= fun _ => pure refs
  | .rtinitDelete ifa flags => rtinitDelete rx ad c.malloc c.ifs call ifa flags >>= fun _ => pure refs
  | .genmask rt mask => store rt (fun e => { e with rt_genmask := mask }) >>= fun _ => pure refs

/-- What the callers see to: they free what they hold, and name entries they hold or that are in the tree. -/
def Allowed (s : Routes A F T) (refs : List Nat) : Op A F → Prop
  | .rtalloc ro_rt _ => ∀ rt ∈ ro_rt, rt ∈ refs
  | .rtfree rt | .RTFREE rt => rt ∈ refs
  | .rtrequest .resolve _ _ _ _ ret_nrt => ∀ rt, ret_nrt = some (some rt) → rt ∈ refs ∨ rt ∈ rx.ids s.tree
  | .rtSetgate rt _ => rt ∈ rx.ids s.tree
  | .genmask rt _ => rt ∈ refs ∨ rt ∈ rx.ids s.tree
  | _ => True

/-- An entry that is deleted is not its own gateway, or has another reference. -/
def Meets (s : Routes A F T) (c : Call A F) : Prop :=
  match c.op with
  | .rtrequest .delete dst _ netmask flags _ => DeleteOk rx s dst (if flags.host then none else netmask)
  | .rtinitDelete ifa flags => InitDeleteOk rx ad c.ifs s ifa flags
  | _ => True

/-- The runs from the start: no entries, and the interface addresses held as `base` says. -/
inductive Reached (base : F → Nat) : Routes A F T → List Nat → Prop
  | boot (s : Routes A F T) (hmem : ∀ i, s.mem i = none) (htree : rx.ids s.tree = []) (htrash : s.rttrash = 0)
    (hifa : ∀ f, s.ifa_refcnt f = some (base f : Int)) : Reached base s []
  | step (s s' : Routes A F T) (refs refs' : List Nat) (c : Call A F) (hrun : Reached base s refs) (hallowed : Allowed rx s refs c.op)
    (hmeets : Meets rx ad s c) (hstep : perform rx ad c refs s = (.ok refs', s')) : Reached base s' refs'

end System

/-! ## What holds -/

section Property
variable {rx : Radix A T} {ad : Addrs A} {base : F → Nat} {s s' : Routes A F T} {refs refs' : List Nat} {c : Call A F}

/-- The `rt_gwroute` pointers to an entry. -/
def Routes.pointers (s : Routes A F T) (i : Nat) : Nat := s.sum fun _ e => if e.rt_gwroute = some i then 1 else 0

/-- The entries that are not in the tree. -/
def Routes.outside (s : Routes A F T) (ids : List Nat) : Nat := s.sum fun j _ => if j ∈ ids then 0 else 1

/-- The entries of an interface address. -/
def Routes.entriesOf (s : Routes A F T) (ifa : F) : Nat := s.sum fun _ e => if e.rt_ifa = some ifa then 1 else 0

structure Counted (rx : Radix A T) (base : F → Nat) (s : Routes A F T) (refs : List Nat) : Prop where
  refcnt : ∀ i e, s.mem i = some e → e.rt_refcnt = (refs.count i + s.pointers i : Nat)
  freed : ∀ i, (∃ e, s.mem i = some e) ↔ i ∈ rx.ids s.tree ∨ 0 < refs.count i + s.pointers i
  rttrash : s.rttrash = s.outside (rx.ids s.tree)
  ifa_refcnt : ∀ ifa, s.ifa_refcnt ifa = some ((base ifa + s.entriesOf ifa : Nat) : Int)

theorem sum_congr {f g : Nat → Rtentry A F → Nat} (h : ∀ j e, s.mem j = some e → f j e = g j e) : s.sum f = s.sum g := by
  refine tally_congr fun j _ => ?_
  cases hj : s.mem j with
  | none => rfl
  | some e => exact h j e hj

theorem Inv.counted (h : Inv rx base s refs [] none) : Counted rx base s refs := by
  have hpointers : ∀ i, s.pointers i = s.sum (points none i) := fun i => sum_congr fun j e _ => by simp [points]
  have hnum : ∀ i, refs.count i + s.pointers i = s.number refs none i := fun i => by rw [hpointers, Routes.number]
  refine ⟨fun i e he => ?_, fun i => ?_, ?_, h.ifa⟩
  · rw [hnum]
    exact (h.place i).count e he
  · rw [hnum]
    constructor
    · rintro ⟨e, he⟩
      rcases (h.place i).placed e he (by rintro ⟨⟩) with ⟨-, hin | hb⟩ | ⟨-, hpos, -⟩
      · exact .inl hin
      · cases hb
      · exact .inr hpos
    · rintro (hin | hpos)
      · obtain ⟨e, he, -⟩ := (h.place i).tree hin
        exact ⟨e, he⟩
      · exact (h.place i).live hpos
  · rw [h.trash]
    refine congrArg Nat.cast (sum_congr fun j e he => ?_)
    rcases (h.place j).placed e he (by rintro ⟨⟩) with ⟨hup, hin | hb⟩ | ⟨hdown, -⟩
    · simp [dead, hup, hin]
    · cases hb
    · have hnot : j ∉ rx.ids s.tree := by
        intro hin
        obtain ⟨d, hd, hup, -⟩ := (h.place j).tree hin
        obtain rfl := Option.some.inj (hd.symm.trans he)
        rw [hdown] at hup
        cases hup
      simp [dead, hdown, hnot]

theorem boot_inv (hmem : ∀ i, s.mem i = none) (htree : rx.ids s.tree = []) (htrash : s.rttrash = 0)
    (hifa : ∀ f, s.ifa_refcnt f = some (base f : Int)) : Inv rx base s [] [] none := by
  have hsum : ∀ f : Nat → Rtentry A F → Nat, s.sum f = 0 := by
    intro f
    have hzero : ∀ l : List Nat, tally (fun j => ((s.mem j).map (f j)).getD 0) l = 0 := by
      intro l
      induction l with
      | nil => rfl
      | cons j l ih => rw [tally_cons, ih, hmem]; rfl
    exact hzero _
  have hnum : ∀ i, s.number [] none i = 0 := fun i => by
    unfold Routes.number
    rw [hsum]
    rfl
  refine ⟨fun i => ?_, by rw [hsum, htrash]; rfl, fun f => by rw [hsum, hifa]; rfl⟩
  have hnone : ∀ P : Rtentry A F → Prop, ∀ e, s.mem i = some e → P e := by
    intro P e he
    rw [hmem] at he
    cases he
  refine ⟨hnone _, hnone _, ?_, hnone _, ?_, (by rintro ⟨⟩), (by rintro ⟨⟩), hnone _⟩
  · rw [hnum]
    exact fun hc => absurd hc (Nat.lt_irrefl _)
  · rw [htree]
    intros
    contradiction

theorem Inv.named {rt : Nat} (h : Inv rx base s refs [] none) (hrt : rt ∈ refs ∨ rt ∈ rx.ids s.tree) :
    ∃ e, s.mem rt = some e ∧ e.rt_ifa.isSome := by
  rcases hrt with hrt | hrt
  · obtain ⟨e, he⟩ := h.referred hrt
    rcases (h.place rt).placed e he (by rintro ⟨⟩) with ⟨-, hin | hb⟩ | ⟨-, -, -, hifa⟩
    · obtain ⟨d, hd, -, hifa⟩ := (h.place rt).tree hin
      exact ⟨d, hd, hifa⟩
    · cases hb
    · exact ⟨e, he, hifa⟩
  · obtain ⟨e, he, -, hifa⟩ := (h.place rt).tree hrt
    exact ⟨e, he, hifa⟩

/-- The order of the references does not matter. -/
theorem Inv.perm (h : Inv rx base s refs [] none) (hp : refs'.Perm refs) : Inv rx base s refs' [] none := by
  refine ⟨fun i => (h.place i).congr (Nat.le_refl _) rfl ?_ Iff.rfl Iff.rfl Iff.rfl, h.trash, h.ifa⟩
  unfold Routes.number
  rw [hp.count_eq]

theorem made_spec {req : Req} (ret_nrt : Option (Option Nat)) (hreq : req ≠ .delete) (r : Except Errno Nat) :
    Inv rx base s (returned ret_nrt.isSome r ++ refs) [] none → wp (match r with
      | .error _ => pure refs
      | .ok rt => if ret_nrt.isSome then if req = .delete then do addRef rt 1; pure (rt :: refs) else pure (rt :: refs) else pure refs :
        RtM A F T (List Nat)) (fun r s' => Inv rx base s' r [] none) Excused s := by
  intro hinv
  cases r with
  | error err => exact hinv
  | ok rt =>
    simp only [returned] at hinv
    simp only [if_neg hreq]
    by_cases hret : ret_nrt.isSome = true
    · rw [if_pos hret] at hinv ⊢
      exact hinv
    · rw [if_neg hret] at hinv ⊢
      exact hinv

theorem delete_spec (call : Rtalloc1 A F T) (dst gateway : A) (netmask : Option A) (flags : Flags)
    (ret_nrt : Option (Option Nat)) (malloc : Nat → Bool) (ifs : Ifs A F) (h : Inv rx base s refs [] none)
    (hmeets : DeleteOk rx s dst (if flags.host then none else netmask)) :
    wp (rtrequest rx ad malloc ifs call .delete dst gateway netmask flags ret_nrt) (fun r s' => match r with
      | .error _ => s' = s
      | .ok i => if ret_nrt.isSome then ∃ e, Loose rx base s' refs [] i e else Inv rx base s' refs [] none) Excused s := by
  unfold rtrequest
  rw [wp_ite]
  exact ⟨fun _ => rfl, fun _ => rtdelete_spec dst _ _ h hmeets⟩

theorem request_spec (call : Rtalloc1 A F T) (hk : Keeps rx base call) (req : Req) (dst gateway : A) (netmask : Option A) (flags : Flags)
    (ret_nrt : Option (Option Nat)) (malloc : Nat → Bool) (ifs : Ifs A F) (h : Inv rx base s refs [] none)
    (hallowed : Allowed rx s refs (.rtrequest req dst gateway netmask flags ret_nrt : Op A F))
    (hmeets : req = .delete → DeleteOk rx s dst (if flags.host then none else netmask)) :
    wp (request rx ad call malloc ifs req dst gateway netmask flags ret_nrt refs) (fun r s' => Inv rx base s' r [] none) Excused s := by
  unfold request
  rw [wp_bind]
  cases req with
  | add =>
    refine wp_post (add_spec hk dst gateway netmask flags ret_nrt h) ?_
    rintro r s1 ⟨hinv, -⟩
    exact made_spec ret_nrt (show Req.add ≠ .delete by simp) r hinv
  | resolve =>
    rcases ret_nrt with _ | _ | rt
    · unfold rtrequest
      rw [wp_ite]
      exact ⟨fun _ => h, fun _ => h⟩
    · unfold rtrequest
      rw [wp_ite]
      exact ⟨fun _ => h, fun _ => h⟩
    · obtain ⟨e, he, hifa⟩ := h.named (hallowed rt rfl)
      refine wp_post (resolve_spec hk dst gateway netmask flags h he hifa) ?_
      rintro r s1 ⟨hinv, -⟩
      exact made_spec (some (some rt)) (show Req.resolve ≠ .delete by simp) r hinv
  | delete =>
    refine wp_post (delete_spec call dst gateway netmask flags ret_nrt malloc ifs h (hmeets rfl)) ?_
    intro r s1 hr
    cases r with
    | error err =>
      obtain rfl : s1 = s := hr
      exact h
    | ok i =>
      simp only at hr ⊢
      by_cases hret : ret_nrt.isSome = true
      · rw [if_pos hret] at hr ⊢
        obtain ⟨e, hloose⟩ := hr
        rw [if_pos trivial, wp_bind]
        apply wp_addRef hloose.mem
        exact hloose.hold
      · rw [if_neg hret] at hr ⊢
        exact hr

/-- One call. -/
theorem perform_spec (h : Inv rx base s refs [] none) (hallowed : Allowed rx s refs c.op) (hmeets : Meets rx ad s c) :
    wp (perform rx ad c refs) (fun r s' => Inv rx base s' r [] none) Excused s := by
  obtain ⟨op, ifs, malloc, fuel⟩ := c
  have hk : Keeps rx base (rtalloc1 rx ad malloc ifs fuel) := rtalloc1_keeps fuel
  -- A reference that is held is the first of the others.
  have hfirst : ∀ rt, rt ∈ refs → Inv rx base s (rt :: refs.erase rt) [] none := fun rt hrt => h.perm (List.perm_cons_erase hrt).symm
  unfold perform
  cases op with
  | rtalloc ro_rt dst =>
    simp only
    rw [wp_bind]
    exact rtalloc_spec hk ro_rt dst hallowed h
  | rtalloc1 dst report =>
    simp only
    rw [wp_bind]
    exact wp_mono (hk dst report s refs [] h) (fun _ _ hr => hr.1) fun _ _ hE => hE
  | rtfree rt =>
    simp only
    rw [wp_bind]
    exact wp_mono (rtfree_spec (hfirst rt hallowed) (by rintro ⟨⟩)) (fun _ _ hr => hr.1) fun _ _ hE => hE
  | RTFREE rt =>
    simp only
    rw [wp_bind]
    exact wp_mono (RTFREE_spec (hfirst rt hallowed) (by rintro ⟨⟩)) (fun _ _ hr => hr.1) fun _ _ hE => hE
  | rtrequest req dst gateway netmask flags ret_nrt =>
    refine request_spec _ hk req dst gateway netmask flags ret_nrt malloc ifs h hallowed fun hreq => ?_
    subst hreq
    exact hmeets
  | rtSetgate rt gate =>
    simp only
    rw [wp_bind]
    exact rtSetgate_tree hk gate hallowed h
  | rtredirect dst gateway netmask flags src rtp =>
    simp only
    rw [wp_bind]
    exact rtredirect_spec hk dst gateway netmask flags src rtp h
  | rtinitAdd ifa flags =>
    simp only
    rw [wp_bind]
    exact rtinitAdd_spec hk ifa flags h
  | rtinitDelete ifa flags =>
    simp only
    rw [wp_bind]
    exact rtinitDelete_spec fuel ifa flags h hmeets
  | genmask rt mask =>
    obtain ⟨e, he, hifa⟩ := h.named hallowed
    simp only
    apply wp_seq_store he
    exact h.neutral _ he rfl rfl rfl rfl fun _ => (h.place rt).gate e he hifa

theorem reached_inv (h : Reached rx ad base s refs) : Inv rx base s refs [] none := by
  induction h with
  | boot s hmem htree htrash hifa => exact boot_inv hmem htree htrash hifa
  | step s s' refs refs' c _ hallowed hmeets hstep ih =>
    have hspec := perform_spec (c := c) ih hallowed hmeets
    have hinv := wp_ok hspec hstep
    exact hinv

/-- In every state of such a run the counts are right; no call touches what is free or panics; and a request that fails changes no
count, unless it made an entry for its gateway before it found its own in the tree. -/
theorem route_runs (h : Reached rx ad base s refs) :
    Counted rx base s refs ∧
    (∀ c : Call A F, Allowed rx s refs c.op → Meets rx ad s c → ∀ e s', perform rx ad c refs s = (.error e, s') →
      e = .wrapped ∨ e = .diverged) ∧
    ∀ (c : Call A F) (req : Req) (dst gateway : A) (netmask : Option A) (flags : Flags) (ret_nrt : Option (Option Nat)),
      c.op = .rtrequest req dst gateway netmask flags ret_nrt → Allowed rx s refs c.op → Meets rx ad s c →
      ∀ err s', rtrequest rx ad c.malloc c.ifs (rtalloc1 rx ad c.malloc c.ifs c.fuel) req dst gateway netmask flags ret_nrt s =
        (.ok (.error err), s') → err ≠ .EEXIST ∨ ¬GateClones rx ad s req gateway flags ret_nrt → SameCounts s s' := by
  have hinv := reached_inv h
  refine ⟨hinv.counted, fun c hallowed hmeets e s' hstep => ?_, ?_⟩
  · have hspec := perform_spec (c := c) hinv hallowed hmeets
    have hexcused := wp_error hspec hstep
    exact hexcused
  · rintro ⟨op, ifs, malloc, fuel⟩ req dst gateway netmask flags ret_nrt rfl hallowed hmeets err s' hreq hplain
    have hret : req = .resolve → ∀ i, ret_nrt = some (some i) → ∃ e, s.mem i = some e ∧ e.rt_ifa.isSome := by
      rintro rfl i rfl
      exact hinv.named (hallowed i rfl)
    have hdel : req = .delete → DeleteOk rx s dst (if flags.host then none else netmask) := by
      rintro rfl
      exact hmeets
    have hspec : wp (rtrequest rx ad malloc ifs (rtalloc1 rx ad malloc ifs fuel) req dst gateway netmask flags ret_nrt) _ Excused s :=
      rtrequest_same malloc ifs fuel req dst gateway netmask flags ret_nrt hinv hret hdel
    have hsame := wp_ok hspec hreq
    exact hsame err rfl hplain

end Property

/-! ## A network that is its own gateway -/

/-- A table by networks; a mask is the number of addresses of a network, and addresses are numbers. -/
abbrev Table : Type := List (Nat × Option Nat × Nat)

def masked (a m : Nat) : Nat := a / m * m

def Table.add (t : Table) (dst : Nat) (mask : Option Nat) (i : Nat) : Option Table :=
  if t.any fun n => n.1 == dst && n.2.1 == mask then none else some ((dst, mask, i) :: t)

def table : Radix Nat Table where
  ids t := t.map fun n => n.2.2
  matchaddr t dst := (t.find? fun n => n.1 == (n.2.1.map (masked dst)).getD dst).map fun n => n.2.2
  addaddr := Table.add
  deladdr t dst mask := (t.find? fun n => n.1 == dst && n.2.1 == mask).map fun n => (n.2.2, t.filter fun m => m.2.2 != n.2.2)
  match_mem t dst i h := by
    obtain ⟨n, hn, rfl⟩ := Option.map_eq_some_iff.1 h
    exact List.mem_map.2 ⟨n, List.mem_of_find?_eq_some hn, rfl⟩
  add_mem t dst mask i t' h := by
    unfold Table.add at h
    split at h
    · cases h
    · obtain rfl := Option.some.inj h
      simp
  del_mem t dst mask i t' h := by
    obtain ⟨n, hn, heq⟩ := Option.map_eq_some_iff.1 h
    obtain ⟨rfl, rfl⟩ := Prod.mk.inj heq
    refine ⟨List.mem_map.2 ⟨n, List.mem_of_find?_eq_some hn, rfl⟩, fun j => ?_⟩
    simp only [List.mem_map, List.mem_filter, bne_iff_ne]
    constructor
    · rintro ⟨m, ⟨hm, hne⟩, rfl⟩
      exact ⟨⟨m, hm, rfl⟩, hne⟩
    · rintro ⟨⟨m, hm, rfl⟩, hne⟩
      exact ⟨m, ⟨hm, hne⟩, rfl⟩

def addrs : Addrs Nat := ⟨fun _ => 8, fun _ => true, masked, fun a b => a == b⟩

/-- One interface, on every network, with the address 5. -/
def oneIf : Ifs Nat Unit :=
  ⟨fun _ => some (), fun a => if a = 5 then some () else none, fun _ => none, fun _ _ => none, fun _ _ => true, fun _ => true, fun _ => 5,
    fun _ => 5, fun _ => some 10, fun _ => ⟨false, false, false, false, false⟩⟩

def start : Routes Nat Unit Table := ⟨fun _ => none, 0, [], 0, fun _ => some 1, 0⟩

def viaGateway : Flags := ⟨true, false, false, false, false⟩

def call (op : Op Nat Unit) : Call Nat Unit := ⟨op, oneIf, fun _ => true, 3⟩

/-- The network 10 to 19 by way of 99, without and with a redirect by 99 to 18, and the network deleted. -/
def addNet : Call Nat Unit := call (.rtrequest .add 10 99 (some 10) viaGateway none)
def redirect : Call Nat Unit := call (.rtredirect 12 18 none viaGateway 99 false)
def deleteNet : Call Nat Unit := call (.rtrequest .delete 10 99 (some 10) viaGateway none)

/-- The state after some calls that hand out no reference. -/
def after (cs : List (Call Nat Unit)) : Routes Nat Unit Table := cs.foldl (fun s c => (perform table addrs c [] s).2) start

theorem start_reached : Reached table addrs (fun _ => 1) start [] := .boot start (fun _ => rfl) rfl rfl fun _ => rfl

theorem addNet_reached : Reached table addrs (fun _ => 1) (after [addNet]) [] :=
  .step start _ [] [] addNet start_reached trivial trivial rfl

theorem redirect_reached : Reached table addrs (fun _ => 1) (after [addNet, redirect]) [] :=
  .step (after [addNet]) _ [] [] redirect addNet_reached trivial trivial rfl

theorem redirect_counted : Counted table (fun _ => 1) (after [addNet, redirect]) [] := (route_runs redirect_reached).1

/-- The network is its own gateway then. To delete it frees the entry that is being deleted. -/
theorem deleted_self : Reached table addrs (fun _ => 1) (after [addNet, redirect]) [] ∧
    Allowed table (after [addNet, redirect]) [] deleteNet.op ∧
    (perform table addrs deleteNet [] (after [addNet, redirect])).1 = .error .fault :=
  ⟨redirect_reached, trivial, rfl⟩

end BsdKernel.Route
