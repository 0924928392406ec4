import BsdKernel.Kern.Namei
/-!
# References and locks of a lookup

`lookup_balance`: in a run of `namei`, `lookup` or `relookup` every return leaves exactly what is
promised, and an error nothing, if and only if the run avoids the steps that `Exact` excludes.
-/

namespace BsdKernel.Namei

open BsdKernel.Lib

variable {V : Type} [DecidableEq V]
variable {e : Errno} {dp dvp vp : V}

/-! ## What is promised -/

/-- A pointer that is not `NULL`, as a set with one element. -/
def held (v : Option V) : Multiset V := v.elim 0 ({·})

def heldSet (v : Option V) : Finset V := v.elim ∅ ({·})

namespace Result
variable (q : Request) (r : Result V)

/-- The target, the parent if it is wanted, and the starting directory if it is to be saved. -/
def refs : Multiset V :=
  held r.vp + (if q.wantparent then held r.dvp else 0) + (if q.savestart then held r.startdir else 0)

def locked : Finset V :=
  (if q.lockleaf then heldSet r.vp else ∅) ∪ (if q.lockparent then heldSet r.dvp else ∅)

end Result

namespace State
variable (w : World V) (q : Request) (s : State V)

/-- A buffer is there while `namei` runs. -/
def base : Nat := if s.namei then 1 else 0

/-- After a return, and when the loop of `namei` reads a link, the process has what it should. Up to then
nothing has been released that it did not have. -/
def Balanced : Prop :=
  match s.pc with
  | .found r =>
    (q.wantparent → r.dvp.isSome) ∧ (q.savestart → r.startdir.isSome) ∧
      s.led = ⟨r.refs q, r.locked q, if s.savename || q.savestart then s.base else 0, false⟩
  | .symlink dvp vp => s.led = ⟨dvp ::ₘ {vp}, if q.lockparent && s.islastcn then {dvp, vp} else {vp}, 0, false⟩
  | .readlink dvp vp => s.led.refs = dvp ::ₘ {vp} ∧ s.led.locked = {vp} ∧ s.led.fault = false
  | .failed _ => s.led = ⟨0, ∅, 0, false⟩
  | .panic => False
  | _ => s.led.fault = false

/-- The documented rules of the answers: a file system consumes no more than is left of the path, and the root
of a mounted file system is not locked by the process that gets it locked. -/
def Documented (i : Input V) : Prop :=
  match s.pc, i with
  | .unionlookup _, .lookup (.found _ consume _) => consume ≤ strlen s.next
  | .crossing _ _ _, .mounted (.root tdp) => tdp ∉ s.led.locked
  | _, _ => True

/-- `VOP_LOOKUP` has left `dvp` locked next to the vnode `target` that it found. -/
def Kept (dvp target : V) : Prop := q.lockparent ∧ s.islastcn ∧ target ≠ dvp

/-- The return with the target, or with `EROFS`, is in order. -/
def NextExact (dvp target dp : V) : Prop :=
  deref s.next ≠ SLASH →
    if q.writes then (q.lockparent ∧ deref s.next = 0 → s.Kept q dvp target)
    else (q.lockparent → s.Kept q dvp target ∨ q.lockleaf ∧ dp = dvp)

/-- A return for an entry that is to be made is in order. -/
def MakeExact : Prop := if q.rdonly then q.lockparent else q.wantparent

/-- The parent of a link is locked where the length says that the path has been read to its end, and where
`lookup` says so if it has not been called from `namei`. -/
def LinkExact (dvp target dp : V) : Prop :=
  if s.namei then q.lockparent → (s.pathlen = 1 ↔ s.Kept q dvp target)
  else q.lockparent ∧ s.islastcn → s.Kept q dvp target ∨ dp = dvp

def ArrivedExact (dvp target dp : V) : Prop :=
  if w.type dp = .VLNK ∧ (q.follow ∨ deref s.next = SLASH) then s.LinkExact q dvp target dp else s.NextExact q dvp target dp

def CrossingExact (dvp target dp : V) (m : Mounted V) : Prop :=
  if w.type dp = .VDIR ∧ q.nocrossmount = false then
    match m with
    | .none => s.ArrivedExact w q dvp target dp
    | .error _ => q.lockparent ∧ deref s.next = 0 → s.Kept q dvp target
    | .busy | .root _ => True
  else s.ArrivedExact w q dvp target dp

/-- The steps after which references and locks are as they should be. -/
def Exact (i : Input V) : Prop :=
  match s.pc, i with
  | .dirloop dp, .tick => deref s.nameptr = 0 → w.type dp = .VDIR → q.nameiop = .LOOKUP → q.savestart = false
  | .dotdot dp, .tick => dp = w.rootdir ∨ dp = w.rootvnode → s.NextExact q dp dp dp
  | .unionlookup _, .lookup (.justreturn _) => MakeExact q
  | .crossing dvp target dp, .mounted m => s.CrossingExact w q dvp target dp m
  | .relookup dvp, .tick =>
    if deref s.nameptr = 0 then
      q.nameiop = .LOOKUP → q.wantparent = false → w.type dvp = .VDIR → q.savestart = false
    else s.isdotdot = false
  | .research _, .lookup (.justreturn _) => MakeExact q
  | .research dvp, .lookup (.found dp _ _) =>
    if q.writes then (q.lockparent ∧ s.islastcn → dp ≠ dvp)
    else (q.lockparent → s.Kept q dvp dp ∨ q.lockleaf ∧ dp = dvp)
  | _, _ => True

end State

/-! ## The ledger -/

namespace Ledger
variable {V : Type} {r : Multiset V} {k : Finset V} {b : Nat} {f : Bool} {v : V} {l : Ledger V}

@[simp] theorem VREF_mk : (⟨r, k, b, f⟩ : Ledger V).VREF v = ⟨v ::ₘ r, k, b, f⟩ := rfl

@[simp] theorem malloc_mk : (⟨r, k, b, f⟩ : Ledger V).malloc = ⟨r, k, b + 1, f⟩ := rfl

@[simp] theorem free_mk : (⟨r, k, b + 1, f⟩ : Ledger V).free = ⟨r, k, b, f⟩ := rfl

theorem locked_free : l.free.locked = l.locked := by
  rw [free]
  split <;> rfl

theorem fault_free (h : l.fault = true) : l.free.fault = true := by
  rw [free]
  split
  · rfl
  · exact h

variable [DecidableEq V]

@[simp] theorem vrele_cons : (⟨v ::ₘ r, k, b, f⟩ : Ledger V).vrele v = ⟨r, k, b, f⟩ := by
  simp [vrele]

@[simp] theorem vrele_singleton : (⟨{v}, k, b, f⟩ : Ledger V).vrele v = ⟨0, k, b, f⟩ :=
  vrele_cons

theorem lock_of (h : v ∉ k) : (⟨r, k, b, f⟩ : Ledger V).lock v = ⟨r, insert v k, b, f⟩ := if_neg h

theorem unlock_of (h : v ∈ k) : (⟨r, k, b, f⟩ : Ledger V).unlock v = ⟨r, k.erase v, b, f⟩ := if_pos h

theorem vput_cons (h : v ∈ k) : (⟨v ::ₘ r, k, b, f⟩ : Ledger V).vput v = ⟨r, k.erase v, b, f⟩ := by
  rw [vput, unlock_of h, vrele_cons]

theorem vput_singleton : (⟨{v}, {v}, b, f⟩ : Ledger V).vput v = ⟨0, ∅, b, f⟩ := by
  have h := vput_cons (r := 0) (b := b) (f := f) (Finset.mem_singleton_self v)
  rwa [Finset.erase_singleton] at h

theorem fault_unlock (h : v ∉ l.locked) : (l.unlock v).fault = true := by
  simp [unlock, h]

theorem fault_vrele (h : l.fault = true) : (l.vrele v).fault = true := by
  rw [vrele]
  split
  · exact h
  · rfl

theorem fault_unlock_of (h : l.fault = true) : (l.unlock v).fault = true := by
  rw [unlock]
  split
  · exact h
  · rfl

theorem fault_vput (h : l.fault = true) : (l.vput v).fault = true := fault_vrele (fault_unlock_of h)

theorem locked_vrele : (l.vrele v).locked = l.locked := by
  rw [vrele]
  split <;> rfl

theorem locked_of_vput (h : l.vput v = ⟨0, ∅, b, false⟩) : l.locked = {v} := by
  by_cases hv : v ∈ l.locked
  · have hk := congrArg Ledger.locked h
    rw [vput, locked_vrele, unlock, if_pos hv] at hk
    rw [← Finset.insert_erase hv, show l.locked.erase v = ∅ from hk, Finset.insert_empty]
  · have hf := fault_vrele (v := v) (fault_unlock hv)
    rw [← vput, h] at hf
    exact absurd hf Bool.false_ne_true

end Ledger

/-! ## The invariant -/

namespace State
variable {w : World V} {q : Request} {s : State V}

instance (dvp target : V) : Decidable (s.Kept q dvp target) := inferInstanceAs (Decidable (_ ∧ _ ∧ _))

/-- In `dp`, come from `target`, which has been found in `dvp`. A parent that is still locked is another vnode. -/
def Crossed (q : Request) (s : State V) (dvp target dp : V) : Prop :=
  s.led = ⟨dvp ::ₘ {dp}, if s.Kept q dvp target then {dvp, dp} else {dp}, s.base, false⟩ ∧
    (s.Kept q dvp target → dvp ≠ dp)

/-- What the process has at each place. -/
def Inv (q : Request) (s : State V) : Prop :=
  match s.pc with
  | .copyin => s.namei = true ∧ s.led = ⟨0, ∅, 1, false⟩
  | .path dp => s.namei = true ∧ s.led = ⟨{dp}, ∅, 1, false⟩
  | .lookup dp => s.led = ⟨{dp}, ∅, s.base, false⟩
  | .dirloop dp => s.led = ⟨{dp}, {dp}, s.base, false⟩
  | .dotdot dp | .unionlookup dp => s.led = ⟨{dp}, {dp}, s.base, false⟩ ∧ s.islastcn = (deref s.next == 0)
  | .crossing dvp target dp => s.Crossed q dvp target dp ∧ (s.islastcn = true → deref s.next = 0)
  | .readlink dvp vp => s.namei = true ∧ s.led = ⟨dvp ::ₘ {vp}, {vp}, if s.pathlen > 1 then 2 else 1, false⟩
  | .relookup dvp => s.namei = false ∧ s.led = ⟨{dvp}, ∅, 0, false⟩
  | .research dvp => s.namei = false ∧ s.led = ⟨{dvp}, {dvp}, 0, false⟩
  | .symlink _ _ | .found _ | .failed _ | .panic => s.Balanced q

theorem Inv.balanced (h : s.Inv q) : s.Balanced q := by
  unfold Inv at h
  unfold Balanced
  cases hp : s.pc <;> simp_all [Crossed, Balanced]

theorem not_balanced (h : s.led.fault = true) : ¬s.Balanced q := by
  intro hb
  unfold Balanced at hb
  cases hp : s.pc <;> simp_all

/-- `t` is in order if and only if `E` holds. -/
def Decides (q : Request) (t : State V) (E : Prop) : Prop := (E → t.Inv q) ∧ (¬E → ¬t.Balanced q)

theorem decides_of_inv {E : Prop} (he : E) (h : s.Inv q) : Decides q s E := ⟨fun _ => h, fun hn => absurd he hn⟩

theorem Decides.congr {E E' : Prop} (h : Decides q s E) (he : E ↔ E') : Decides q s E' :=
  ⟨fun h' => h.1 (he.2 h'), fun hn => h.2 fun h' => hn (he.1 h')⟩

/-! ## Exits -/

theorem error_inv (h : s.led = ⟨0, ∅, s.base, false⟩) : (s.error e).Inv q := by
  cases hn : s.namei <;> simp [Inv, Balanced, error, base, hn, h]

theorem bad_inv (h : s.led = ⟨{dp}, {dp}, s.base, false⟩) : (s.bad dp e).Inv q := by
  refine error_inv ?_
  rw [h, Ledger.vput_singleton]
  rfl

omit [DecidableEq V] in
theorem fault_error (h : s.led.fault = true) : (s.error e).led.fault = true := by
  unfold error
  dsimp only
  split
  · exact Ledger.fault_free h
  · exact h

theorem fault_bad (h : s.led.fault = true ∨ dp ∉ s.led.locked) : (s.bad dp e).led.fault = true := by
  refine fault_error ?_
  rcases h with h | h
  · exact Ledger.fault_vput h
  · exact Ledger.fault_vrele (Ledger.fault_unlock h)

theorem done_inv_iff {r : Result V} (rs : Multiset V) (k : Finset V) (h : s.led = ⟨rs, k, s.base, false⟩) :
    (s.done q r).Inv q ↔ (q.wantparent → r.dvp.isSome) ∧ (q.savestart → r.startdir.isSome) ∧ rs = r.refs q ∧ k = r.locked q := by
  cases hn : s.namei <;> cases hsave : s.savename || q.savestart <;>
    simp [Inv, Balanced, done, base, hn, hsave, h]

theorem done_decides {r : Result V} (rs : Multiset V) (k : Finset V) {E : Prop} (h : s.led = ⟨rs, k, s.base, false⟩)
    (hE : E ↔ (q.wantparent → r.dvp.isSome) ∧ (q.savestart → r.startdir.isSome) ∧ rs = r.refs q ∧ k = r.locked q) :
    Decides q (s.done q r) E :=
  ⟨fun he => (done_inv_iff rs k h).2 (hE.1 he), fun hn hb => hn (hE.2 ((done_inv_iff rs k h).1 hb))⟩

theorem followlink_inv (hn : s.namei = true) (h : s.led = ⟨dvp ::ₘ {vp}, {vp}, 1, false⟩) :
    (s.followlink dvp vp).Inv q := by
  unfold followlink
  split
  · show Ledger.vput _ _ = _
    rw [h, Ledger.free_mk, Ledger.vrele_cons, Ledger.vput_singleton]
  · refine ⟨hn, ?_⟩
    rw [h]
    split <;> simp [*]

theorem followlink_bad (h : s.led.fault = true ∨ s.led.locked ≠ {vp}) : ¬(s.followlink dvp vp).Balanced q := by
  unfold followlink
  split
  · rcases h with h | h
    · exact not_balanced (Ledger.fault_vput (Ledger.fault_vrele (Ledger.fault_free h)))
    · intro hb
      have hlock := Ledger.locked_of_vput (b := 0) hb
      rw [Ledger.locked_vrele, Ledger.locked_free] at hlock
      exact h hlock
  · rintro ⟨-, hlock, hfault⟩
    rcases h with h | h
    · dsimp only at hfault
      split at hfault <;> simp_all [Ledger.malloc]
    · dsimp only at hlock
      split at hlock <;> simp_all [Ledger.malloc]

namespace Crossed
variable {dvp target dp : V} (h : s.Crossed q dvp target dp)
include h

/-- A success with the target. -/
theorem success_decides : Decides q (s.success q dvp dp) (q.lockparent → s.Kept q dvp target ∨ q.lockleaf ∧ dp = dvp) := by
  obtain ⟨hled, hne⟩ := h
  generalize hk : (if s.Kept q dvp target then ({dvp, dp} : Finset V) else {dp}) = k at hled
  have hmem : dp ∈ k := by rw [← hk]; split <;> simp
  refine done_decides ((if q.wantparent then {dvp} else 0) + (if q.savestart then {dvp} else 0) + {dp})
    (if q.lockleaf then k else k.erase dp) ?_ ?_
  · cases q.wantparent <;> cases q.savestart <;> cases q.lockleaf <;>
      simp [hled, Ledger.unlock_of hmem, base]
  have hrefs : (if q.wantparent then ({dvp} : Multiset V) else 0) + (if q.savestart then {dvp} else 0) + {dp} =
      Result.refs q ⟨some dp, some dvp, if q.savestart then some dvp else none⟩ := by
    rw [Multiset.add_comm, ← Multiset.add_assoc]
    unfold Result.refs
    cases q.savestart <;> rfl
  have hlocked : (if q.lockleaf then k else k.erase dp) =
      Result.locked q ⟨some dp, some dvp, if q.savestart then some dvp else none⟩ ↔
      (q.lockparent → s.Kept q dvp target ∨ q.lockleaf ∧ dp = dvp) := by
    by_cases hkept : s.Kept q dvp target
    · have hlp : q.lockparent = true := hkept.1
      rw [if_pos hkept] at hk
      subst hk
      have herase : ({dvp, dp} : Finset V).erase dp = {dvp} := by
        rw [Finset.erase_insert_of_ne (hne hkept), Finset.erase_singleton, Finset.insert_empty]
      cases hl : q.lockleaf <;> simp [Result.locked, heldSet, hlp, hkept, hl, herase]
      exact Finset.pair_comm dvp dp
    · rw [if_neg hkept] at hk
      subst hk
      have hboth : ({dp} : Finset V) = {dp} ∪ {dvp} ↔ dp = dvp := by
        rw [Finset.left_eq_union, Finset.singleton_subset_iff, Finset.mem_singleton, eq_comm]
      cases hlp : q.lockparent with
      | false => cases hl : q.lockleaf <;> simp [Result.locked, heldSet, hlp, hl]
      | true =>
        cases hl : q.lockleaf with
        | false => simp [Result.locked, heldSet, hlp, hkept, hl]
        | true => simpa [Result.locked, heldSet, hlp, hkept, hl] using hboth
  rw [← hlocked]
  constructor
  · intro he
    refine ⟨fun _ => rfl, fun hs => ?_, hrefs, he⟩
    rw [if_pos hs]
    rfl
  · exact fun he => he.2.2.2

theorem kept_locked (hkept : s.Kept q dvp target) : s.led = ⟨dvp ::ₘ {dp}, {dvp, dp}, s.base, false⟩ := by
  rw [h.1, if_pos hkept]

theorem alone_locked (hkept : ¬s.Kept q dvp target) : s.led = ⟨dvp ::ₘ {dp}, {dp}, s.base, false⟩ := by
  rw [h.1, if_neg hkept]

/-- A return with an error, with the parent unlocked if `b` says so. -/
theorem release_decides {b : Bool} (hb : s.Kept q dvp target → b = true) :
    Decides q ({ s with led := (if b then s.led.unlock dvp else s.led).vrele dvp }.bad dp e) (b = true → s.Kept q dvp target) := by
  by_cases hkept : s.Kept q dvp target
  · refine decides_of_inv (fun _ => hkept) (bad_inv ?_)
    have herase : ({dvp, dp} : Finset V).erase dvp = {dp} :=
      Finset.erase_insert (by simpa using h.2 hkept)
    simp [h.kept_locked hkept, hb hkept, Ledger.unlock_of, herase, base]
  · cases b with
    | false =>
      refine decides_of_inv nofun (bad_inv ?_)
      simp [h.alone_locked hkept, base]
    | true =>
      refine ⟨fun he => absurd (he rfl) hkept, fun _ => not_balanced (fault_bad ?_)⟩
      rw [h.alone_locked hkept]
      by_cases hd : dvp = dp
      · -- the only lock goes with the first unlock
        subst hd
        right
        simp [Ledger.unlock_of]
      · left
        exact Ledger.fault_vrele (Ledger.fault_unlock (by simpa using hd))

theorem bad2_decides (hnext : s.Kept q dvp target → deref s.next = 0) :
    Decides q (s.bad2 q dvp dp e) (q.lockparent ∧ deref s.next = 0 → s.Kept q dvp target) := by
  have hd := h.release_decides (b := q.lockparent && deref s.next == 0) (e := e) (fun hk => by simp [hk.1, hnext hk])
  refine hd.congr ?_
  rw [Bool.and_eq_true, beq_iff_eq]

theorem nextname_decides (hnext : s.Kept q dvp target → deref s.next = 0) :
    Decides q (s.nextname q dvp dp) (s.NextExact q dvp target dp) := by
  unfold nextname NextExact
  by_cases hs : deref s.next = SLASH
  · rw [if_pos (by simpa using hs)]
    refine decides_of_inv (fun hn => absurd hs hn) ?_
    have hkept : ¬s.Kept q dvp target := by
      intro hk
      rw [hnext hk] at hs
      exact absurd hs (by decide)
    show Ledger.vrele _ _ = _
    rw [h.alone_locked hkept, Ledger.vrele_cons]
    rfl
  · rw [if_neg (by simpa using hs)]
    simp only [ne_eq, hs, not_false_eq_true, true_implies]
    split
    · exact h.bad2_decides hnext
    · exact h.success_decides

/-- A link is left to the loop of `namei`, or to the caller of `lookup`. -/
theorem issymlink_decides : Decides q (s.issymlink q dvp dp) (s.LinkExact q dvp target dp) := by
  unfold issymlink LinkExact
  by_cases hn : s.namei = true
  · have hbase : s.base = 1 := if_pos hn
    rw [if_pos hn, if_pos hn]
    by_cases hkept : s.Kept q dvp target
    · have hled := hbase ▸ h.kept_locked hkept
      have herase : ({dvp, dp} : Finset V).erase dvp = {dp} := Finset.erase_insert (by simpa using h.2 hkept)
      by_cases hl : s.pathlen = 1
      · refine decides_of_inv (fun _ => by simp [hl, hkept]) (followlink_inv hn ?_)
        simp [hkept.1, hl, hled, Ledger.unlock_of, herase]
      · refine ⟨fun he => absurd ((he hkept.1).2 hkept) hl, fun _ => followlink_bad (.inr ?_)⟩
        simpa [hl, hled] using h.2 hkept
    · have hled := hbase ▸ h.alone_locked hkept
      by_cases hb : q.lockparent = true ∧ s.pathlen = 1
      · refine ⟨fun he => absurd ((he hb.1).1 hb.2) hkept, fun _ => followlink_bad ?_⟩
        by_cases hd : dvp = dp
        · subst hd
          right
          simp [hb, hled, Ledger.unlock_of]
        · left
          simpa [hb, hled] using Ledger.fault_unlock (l := ⟨dvp ::ₘ {dp}, {dp}, 1, false⟩) (by simpa using hd)
      · refine decides_of_inv (fun hlp => ⟨fun hl => absurd ⟨hlp, hl⟩ hb, fun hk => absurd hk hkept⟩) (followlink_inv hn ?_)
        have hfalse : ¬(q.lockparent && s.pathlen == 1) = true := by simpa using hb
        rw [if_neg hfalse, hled]
  · have hbase : s.base = 0 := if_neg hn
    rw [if_neg hn, if_neg hn]
    have hinv : { s with pc := .symlink dvp dp }.Inv q ↔
        s.led = ⟨dvp ::ₘ {dp}, if q.lockparent && s.islastcn then {dvp, dp} else {dp}, 0, false⟩ := Iff.rfl
    have hiff : { s with pc := .symlink dvp dp }.Inv q ↔ (q.lockparent ∧ s.islastcn → s.Kept q dvp target ∨ dp = dvp) := by
      rw [hinv]
      by_cases hkept : s.Kept q dvp target
      · have hlast : (q.lockparent && s.islastcn) = true := by simp [hkept.1, hkept.2.1]
        simp [hbase ▸ h.kept_locked hkept, hlast, hkept]
      · have hled := hbase ▸ h.alone_locked hkept
        rw [hled]
        by_cases hlast : (q.lockparent && s.islastcn) = true
        · have hboth := Bool.and_eq_true_iff.1 hlast
          have hpair : ({dp} : Finset V) = {dvp, dp} ↔ dp = dvp := by
            rw [Finset.ext_iff]
            constructor
            · intro he
              simpa [eq_comm] using (he dvp).2 (by simp)
            · rintro rfl
              simp
          simp [hboth, hkept, hpair]
        · simp [hlast]
          intro ha hb
          exact absurd (by simp [ha, hb]) hlast
    exact ⟨hiff.2, fun hn hb => hn (hiff.1 hb)⟩

/-- Over a mount, from the directory to the root of what is mounted on it. -/
theorem root {tdp : V} (htdp : tdp ∉ s.led.locked) :
    { s with led := ((s.led.VREF tdp).lock tdp).vput dp, pc := .crossing dvp target tdp }.Crossed q dvp target tdp := by
  have hswap : tdp ::ₘ dvp ::ₘ ({dp} : Multiset V) = dp ::ₘ dvp ::ₘ {tdp} := by
    have hpair : dvp ::ₘ ({dp} : Multiset V) = dp ::ₘ {dvp} := Multiset.cons_swap dvp dp 0
    rw [hpair, Multiset.cons_swap]
    congr 1
    exact Multiset.cons_swap tdp dvp 0
  by_cases hkept : s.Kept q dvp target
  · have hled := h.kept_locked hkept
    have hne := h.2 hkept
    rw [hled] at htdp
    simp only [Finset.mem_insert, Finset.mem_singleton, not_or] at htdp
    refine ⟨?_, fun _ => Ne.symm htdp.1⟩
    show Ledger.vput _ _ = _
    have herase : (insert tdp ({dvp, dp} : Finset V)).erase dp = {dvp, tdp} := by
      ext v
      simp only [Finset.mem_erase, Finset.mem_insert, Finset.mem_singleton]
      constructor
      · rintro ⟨hv, rfl | rfl | rfl⟩
        · exact .inr rfl
        · exact .inl rfl
        · exact absurd rfl hv
      · rintro (rfl | rfl)
        · exact ⟨hne, .inr (.inl rfl)⟩
        · exact ⟨htdp.2, .inl rfl⟩
    rw [hled, Ledger.VREF_mk, Ledger.lock_of (by simp [htdp]), hswap, Ledger.vput_cons (by simp), herase]
    exact congrArg (Ledger.mk _ · _ _) (if_pos hkept).symm
  · have hled := h.alone_locked hkept
    rw [hled] at htdp
    have hne : tdp ≠ dp := by simpa using htdp
    have herase : (insert tdp ({dp} : Finset V)).erase dp = {tdp} := by
      rw [Finset.erase_insert_of_ne hne, Finset.erase_singleton, Finset.insert_empty]
    refine ⟨?_, fun hk => absurd hk hkept⟩
    show Ledger.vput _ _ = _
    rw [hled, Ledger.VREF_mk, Ledger.lock_of (by simpa using hne), hswap, Ledger.vput_cons (by simp), herase]
    exact congrArg (Ledger.mk _ · _ _) (if_neg hkept).symm

theorem arrived_decides (hnext : s.Kept q dvp target → deref s.next = 0) :
    Decides q (s.arrived w q dvp dp) (s.ArrivedExact w q dvp target dp) := by
  unfold arrived ArrivedExact
  split
  · exact h.issymlink_decides
  · exact h.nextname_decides hnext

end Crossed

/-! ## Steps -/

section Steps
variable (w)

theorem crossing_decides {target : V} {m : Mounted V} (h : s.Crossed q dvp target dp)
    (hlast : s.islastcn = true → deref s.next = 0) (hroot : ∀ tdp, m = .root tdp → tdp ∉ s.led.locked)
    (hpc : s.pc = .crossing dvp target dp) :
    Decides q (s.crossing w q dvp target dp m) (s.CrossingExact w q dvp target dp m) := by
  have hnext : s.Kept q dvp target → deref s.next = 0 := fun hk => hlast hk.2.1
  unfold crossing CrossingExact
  split
  · cases m with
    | none => exact h.arrived_decides hnext
    | error e => exact h.bad2_decides hnext
    | busy =>
      refine decides_of_inv trivial ?_
      unfold Inv
      rw [hpc]
      exact ⟨h, hlast⟩
    | root tdp =>
      exact decides_of_inv trivial ⟨h.root (hroot tdp rfl), hlast⟩
  · exact h.arrived_decides hnext

theorem lookup_inv (h : s.led = ⟨{dp}, ∅, s.base, false⟩) : (s.lookup dp).Inv q := by
  show Ledger.lock _ _ = _
  rw [h, Ledger.lock_of (Finset.notMem_empty dp)]
  rfl

/-- The step from a covered root of a mounted file system to the vnode that it covers. -/
theorem covered_led {tdp : V} (h : s.led = ⟨{dp}, {dp}, s.base, false⟩) :
    ((s.led.vput dp).VREF tdp).lock tdp = ⟨{tdp}, {tdp}, s.base, false⟩ := by
  rw [h, Ledger.vput_singleton, Ledger.VREF_mk, Ledger.lock_of (Finset.notMem_empty tdp)]
  rfl

theorem degenerate_decides (h : s.led = ⟨{dp}, {dp}, s.base, false⟩) :
    Decides q (s.degenerate w q dp) (w.type dp = .VDIR → q.nameiop = .LOOKUP → q.savestart = false) := by
  unfold degenerate
  by_cases ht : w.type dp = .VDIR
  · rw [if_neg (not_not_intro ht)]
    by_cases hop : q.nameiop = .LOOKUP
    · rw [if_neg (not_not_intro hop)]
      by_cases hs : q.savestart = true
      · rw [if_pos hs]
        exact ⟨fun he => absurd (he ht hop) (by simp [hs]), fun _ => id⟩
      · rw [if_neg hs]
        have hfalse : q.savestart = false := by simpa using hs
        refine decides_of_inv (fun _ _ => hfalse) ((done_inv_iff ({dp} + if q.wantparent then {dp} else 0)
          (if q.lockparent || q.lockleaf then {dp} else ∅) ?_).2 ⟨fun hw => ?_, fun hs' => absurd hs' hs, ?_, ?_⟩)
        · cases q.wantparent <;> cases q.lockparent || q.lockleaf <;> simp [h, Ledger.unlock_of, base]
        · simp [hw]
        · cases hw : q.wantparent <;> simp [Result.refs, held, hw, hfalse]
        · cases hlp : q.lockparent <;> cases hl : q.lockleaf <;>
            simp [Result.locked, heldSet, Request.wantparent, hlp, hl]
    · rw [if_pos hop]
      exact decides_of_inv (fun _ he => absurd he hop) (bad_inv h)
  · rw [if_pos ht]
    exact decides_of_inv (fun he => absurd he ht) (bad_inv h)

omit [DecidableEq V] in
theorem strlen_of_deref {cp : List UInt8} (h : deref cp = 0) : strlen cp = 0 := by
  cases cp with
  | nil => rfl
  | cons c cs =>
    have hc : c = 0 := h
    subst hc
    rfl

theorem dirloop_decides (h : s.led = ⟨{dp}, {dp}, s.base, false⟩) :
    Decides q (s.dirloop w q dp) (deref s.nameptr = 0 → w.type dp = .VDIR → q.nameiop = .LOOKUP → q.savestart = false) := by
  unfold dirloop
  dsimp only
  split
  · rename_i hlong
    refine decides_of_inv (fun h0 => ?_) (bad_inv h)
    -- an empty name is not too long
    exfalso
    have hnil : component s.nameptr = [] := by
      unfold component deref at *
      cases hs : s.nameptr with
      | nil => rfl
      | cons a as =>
        rw [hs] at h0
        have ha : a = 0 := h0
        subst ha
        rfl
    rw [hnil] at hlong
    exact absurd hlong (Nat.not_lt_zero _)
  · split
    · rename_i h0
      exact (degenerate_decides w (by exact h)).congr ⟨fun he _ => he, fun he => he h0⟩
    · rename_i h0
      refine decides_of_inv (fun he => absurd he h0) ?_
      split
      · exact ⟨h, rfl⟩
      · exact ⟨h, rfl⟩

theorem dotdot_decides (h : s.led = ⟨{dp}, {dp}, s.base, false⟩) (hlast : s.islastcn = (deref s.next == 0)) :
    Decides q (s.dotdot w q dp) (dp = w.rootdir ∨ dp = w.rootvnode → s.NextExact q dp dp dp) := by
  unfold dotdot
  split
  · rename_i hroot
    have hkept : ¬s.Kept q dp dp := fun hk => hk.2.2 rfl
    have hcr : { s with led := s.led.VREF dp }.Crossed q dp dp dp := by
      refine ⟨?_, fun hk => absurd hk hkept⟩
      show Ledger.VREF _ _ = _
      rw [h]
      exact congrArg (Ledger.mk _ · _ _) (if_neg hkept).symm
    exact (hcr.nextname_decides fun hk => absurd hk hkept).congr ⟨fun he _ => he, fun he => he hroot⟩
  · rename_i hroot
    refine decides_of_inv (fun hr => absurd hr hroot) ?_
    split
    · exact ⟨h, hlast⟩
    · exact ⟨covered_led h, hlast⟩

theorem vopFound_crossed (vp : V) (savename : Bool) (h : s.led = ⟨{dvp}, {dvp}, s.base, false⟩) :
    (s.vopFound q dvp vp savename).Crossed q dvp vp vp := by
  refine ⟨?_, fun hk => Ne.symm hk.2.2⟩
  have hpair : vp ::ₘ ({dvp} : Multiset V) = dvp ::ₘ {vp} := Multiset.cons_swap vp dvp 0
  show (if vp = dvp then _ else _ : Ledger V) = ⟨_, if s.Kept q dvp vp then _ else _, s.base, false⟩
  rw [h, Ledger.VREF_mk, hpair]
  by_cases hv : vp = dvp
  · subst hv
    rw [if_pos rfl, if_neg fun hk => hk.2.2 rfl]
  · have hnot : vp ∉ ({dvp} : Finset V) := by simpa using hv
    rw [if_neg hv, Ledger.lock_of hnot, Ledger.unlock_of (by simp)]
    have herase : (insert vp ({dvp} : Finset V)).erase dvp = {vp} := by
      rw [Finset.erase_insert_of_ne hv, Finset.erase_singleton, Finset.insert_empty]
    by_cases hk : s.Kept q dvp vp
    · rw [if_pos (by simp [hk.1, hk.2.1]), if_pos hk, Finset.pair_comm]
    · have hb : ¬(q.lockparent && s.islastcn) = true := fun hb => hk ⟨(Bool.and_eq_true_iff.1 hb).1, (Bool.and_eq_true_iff.1 hb).2, hv⟩
      rw [if_neg hb, if_neg hk, herase]

theorem justreturn_decides {savename : Bool} (h : s.led = ⟨{dvp}, {dvp}, s.base, false⟩) :
    Decides q ((s.vopJustreturn q dvp savename).justreturn q dvp) (MakeExact q) := by
  have hled : (s.vopJustreturn q dvp savename).led = ⟨{dvp}, if q.lockparent then {dvp} else ∅, s.base, false⟩ := by
    show (if q.lockparent then s.led else s.led.unlock dvp) = _
    rw [h, Ledger.unlock_of (Finset.mem_singleton_self dvp), Finset.erase_singleton]
    split <;> rfl
  unfold justreturn MakeExact
  split
  · cases hlp : q.lockparent with
    | true =>
      rw [hlp] at hled
      exact decides_of_inv rfl (bad_inv hled)
    | false =>
      refine ⟨nofun, fun _ => not_balanced (fault_bad (.inr ?_))⟩
      rw [hled, hlp]
      exact Finset.notMem_empty dvp
  · refine done_decides ({dvp} + if q.savestart then {dvp} else 0) (if q.lockparent then {dvp} else ∅) ?_ ?_
    · show (if q.savestart then Ledger.VREF _ dvp else _) = _
      rw [hled]
      cases q.savestart <;> rfl
    · cases hw : q.wantparent <;> cases hs : q.savestart <;> cases hl : q.lockparent <;> cases q.lockleaf <;>
        simp_all [Result.refs, Result.locked, held, heldSet, Request.wantparent]
      -- a parent that nobody wants is one reference too many
      all_goals exact fun he => by simpa using congrArg Multiset.card he

theorem unionlookup_decides {a : Answer V} (h : s.led = ⟨{dp}, {dp}, s.base, false⟩)
    (hlast : s.islastcn = (deref s.next == 0))
    (hconsume : ∀ vp n savename, a = .found vp n savename → n ≤ strlen s.next) :
    Decides q (s.unionlookup w q dp a) (∀ savename, a = .justreturn savename → MakeExact q) := by
  unfold unionlookup
  cases a with
  | found vp n savename =>
    refine decides_of_inv nofun ⟨vopFound_crossed vp savename h, fun hl => ?_⟩
    have h0 : deref s.next = 0 := by
      rw [show s.islastcn = true from hl] at hlast
      simpa using hlast.symm
    have hn : n = 0 := by
      have hle := hconsume vp n savename rfl
      rw [strlen_of_deref h0] at hle
      exact Nat.le_zero.1 hle
    subst hn
    exact h0
  | justreturn savename => exact (justreturn_decides h).congr ⟨fun he _ _ => he, fun he => he savename rfl⟩
  | error e =>
    refine decides_of_inv nofun ?_
    dsimp only
    split
    · exact ⟨covered_led h, hlast⟩
    · exact bad_inv h

theorem copyin_inv {path : Except Errno (List UInt8)} (hn : s.namei = true) (h : s.led = ⟨0, ∅, 1, false⟩) :
    (s.copyin w path).Inv q := by
  unfold copyin
  cases path with
  | error e => exact error_inv (by rw [h, base, if_pos hn])
  | ok str =>
    refine ⟨hn, ?_⟩
    show Ledger.VREF _ _ = _
    rw [h]
    rfl

theorem path_inv (hn : s.namei = true) (h : s.led = ⟨{dp}, ∅, 1, false⟩) : (s.path w dp).Inv q := by
  have hbase : s.base = 1 := if_pos hn
  unfold path
  split
  · show Ledger.VREF _ _ = Ledger.mk _ _ s.base _
    rw [h, Ledger.vrele_singleton, hbase]
    rfl
  · show s.led = Ledger.mk _ _ s.base _
    rw [h, hbase]

theorem readlink_inv {link : Except Errno (List UInt8)} (hn : s.namei = true)
    (h : s.led = ⟨dvp ::ₘ {vp}, {vp}, if s.pathlen > 1 then 2 else 1, false⟩) : (s.readlink dvp vp link).Inv q := by
  have hfreed : (if s.pathlen > 1 then { s with led := s.led.free } else s).led = ⟨dvp ::ₘ {vp}, {vp}, 1, false⟩ := by
    split
    · rename_i hl
      rw [if_pos hl] at h
      show s.led.free = _
      rw [h, Ledger.free_mk]
    · rename_i hl
      rw [if_neg hl] at h
      exact h
  have hgiveup : ∀ (t : State V) (e : Errno), t.led = ⟨dvp ::ₘ {vp}, {vp}, 1, false⟩ → (t.giveup dvp vp e).Inv q := by
    intro t e ht
    show Ledger.vput _ _ = _
    rw [ht, Ledger.free_mk, Ledger.vrele_cons, Ledger.vput_singleton]
  unfold readlink
  cases link with
  | error e => exact hgiveup _ _ hfreed
  | ok link =>
    dsimp only
    split
    · exact hgiveup _ _ hfreed
    · have hpair : dvp ::ₘ ({vp} : Multiset V) = vp ::ₘ {dvp} := Multiset.cons_swap dvp vp 0
      refine ⟨?_, ?_⟩
      · split <;> exact hn
      · show Ledger.vput _ _ = _
        rw [hfreed, hpair, Ledger.vput_cons (Finset.mem_singleton_self vp), Finset.erase_singleton]

theorem relookup_decides (hn : s.namei = false) (h : s.led = ⟨{dvp}, ∅, 0, false⟩) :
    Decides q (s.relookup w q dvp)
      (if deref s.nameptr = 0 then q.nameiop = .LOOKUP → q.wantparent = false → w.type dvp = .VDIR → q.savestart = false
      else s.isdotdot = false) := by
  have hbase : s.base = 0 := by rw [base, hn]; rfl
  have hlock : s.led.lock dvp = ⟨{dvp}, {dvp}, s.base, false⟩ := by
    rw [h, hbase, Ledger.lock_of (Finset.notMem_empty dvp)]
    rfl
  unfold relookup
  dsimp only
  split
  · by_cases hop : q.nameiop = .LOOKUP ∧ q.wantparent = false
    · rw [if_neg (by simp [hop])]
      by_cases ht : w.type dvp = .VDIR
      · rw [if_neg (not_not_intro ht)]
        by_cases hs : q.savestart = true
        · rw [if_pos hs]
          exact ⟨fun he => absurd (he hop.1 hop.2 ht) (by simp [hs]), fun _ => id⟩
        · rw [if_neg hs]
          have hfalse : q.savestart = false := by simpa using hs
          have hlp : q.lockparent = false := by
            have hw := hop.2
            unfold Request.wantparent at hw
            exact (Bool.or_eq_false_iff.1 hw).1
          refine decides_of_inv (fun _ _ _ => hfalse) ((done_inv_iff {dvp} (if q.lockleaf then {dvp} else ∅) ?_).2
            ⟨fun hw => by simp [hop.2] at hw, fun hs' => absurd hs' hs, ?_, ?_⟩)
          · cases q.lockleaf <;> simp [hlock, Ledger.unlock_of, base]
          · simp [Result.refs, held, hop.2, hfalse]
          · simp [Result.locked, heldSet, hlp]
      · rw [if_pos ht]
        exact decides_of_inv (fun _ _ he => absurd he ht) (bad_inv hlock)
    · rw [if_pos (by by_contra hc; exact hop (by simpa using hc))]
      exact decides_of_inv (fun ha hb => absurd ⟨ha, hb⟩ hop) (bad_inv hlock)
  · split
    · rename_i hdd
      exact ⟨fun he => absurd he (by simp [hdd]), fun _ => id⟩
    · rename_i hdd
      refine decides_of_inv (by simpa using hdd) ⟨hn, ?_⟩
      show s.led.lock dvp = _
      rw [hlock, hbase]

theorem research_decides {a : Answer V} (hn : s.namei = false) (h : s.led = ⟨{dvp}, {dvp}, 0, false⟩) :
    Decides q (s.research q dvp a)
      (match a with
      | .justreturn _ => MakeExact q
      | .found dp _ _ =>
        if q.writes then (q.lockparent ∧ s.islastcn → dp ≠ dvp)
        else (q.lockparent → s.Kept q dvp dp ∨ q.lockleaf ∧ dp = dvp)
      | .error _ => True) := by
  have hbase : s.base = 0 := by rw [base, hn]; rfl
  rw [← hbase] at h
  unfold research
  cases a with
  | error e => exact decides_of_inv trivial (bad_inv h)
  | justreturn savename => exact justreturn_decides h
  | found dp n savename =>
    have hcr := vopFound_crossed (q := q) dp savename h
    dsimp only
    split
    · refine (hcr.release_decides (b := q.lockparent && s.islastcn) fun hk => Bool.and_eq_true_iff.2 ⟨hk.1, hk.2.1⟩).congr ?_
      rw [Bool.and_eq_true]
      exact ⟨fun he hl => (he hl).2.2, fun he hl => ⟨hl.1, hl.2, he hl⟩⟩
    · exact hcr.success_decides

/-- One step is in order if and only if `Exact` holds of it. -/
theorem step_decides {i : Input V} (h : s.Inv q) (hd : s.Documented i) : Decides q (step w q s i) (s.Exact w q i) := by
  have hstay : s.Inv q := h
  unfold Inv at h
  unfold Documented at hd
  unfold step Exact
  generalize hpc : s.pc = pc at h hd
  cases pc with
  | copyin =>
    cases i with
    | copyin path => exact decides_of_inv trivial (copyin_inv w h.1 h.2)
    | _ => exact decides_of_inv trivial hstay
  | path dp =>
    cases i with
    | tick => exact decides_of_inv trivial (path_inv w h.1 h.2)
    | _ => exact decides_of_inv trivial hstay
  | lookup dp =>
    cases i with
    | tick => exact decides_of_inv trivial (lookup_inv h)
    | _ => exact decides_of_inv trivial hstay
  | dirloop dp =>
    cases i with
    | tick => exact dirloop_decides w h
    | _ => exact decides_of_inv trivial hstay
  | dotdot dp =>
    cases i with
    | tick => exact dotdot_decides w h.1 h.2
    | _ => exact decides_of_inv trivial hstay
  | unionlookup dp =>
    cases i with
    | lookup a =>
      refine (unionlookup_decides w h.1 h.2 ?_).congr ?_
      · rintro vp n savename rfl
        exact hd
      · cases a with
        | justreturn savename => exact ⟨fun he => he savename rfl, fun he _ _ => he⟩
        | _ => exact ⟨fun _ => trivial, fun _ _ => nofun⟩
    | _ => exact decides_of_inv trivial hstay
  | crossing dvp target dp =>
    cases i with
    | mounted m =>
      refine crossing_decides w h.1 h.2 ?_ hpc
      rintro tdp rfl
      exact hd
    | _ => exact decides_of_inv trivial hstay
  | readlink dvp vp =>
    cases i with
    | readlink link => exact decides_of_inv trivial (readlink_inv h.1 h.2)
    | _ => exact decides_of_inv trivial hstay
  | relookup dvp =>
    cases i with
    | tick => exact relookup_decides w h.1 h.2
    | _ => exact decides_of_inv trivial hstay
  | research dvp =>
    cases i with
    | lookup a =>
      refine (research_decides h.1 h.2).congr ?_
      cases a <;> exact Iff.rfl
    | _ => exact decides_of_inv trivial hstay
  | symlink dvp vp => exact decides_of_inv trivial hstay
  | found r => exact decides_of_inv trivial hstay
  | failed e => exact decides_of_inv trivial hstay
  | panic => exact decides_of_inv trivial hstay

end Steps

end State

/-- In a run of `namei`, `lookup` or `relookup`, for every path, every request and all documented answers, every
return has exactly the references and locks that are promised, if and only if every step meets `Exact`. -/
theorem lookup_balance (w : World V) (q : Request) (c : Call V) (is : List (Input V))
    (hdoc : Along (step w q) State.Documented (start q c) is) :
    (∀ t ∈ states (step w q) (start q c) is, t.Balanced q) ↔ Along (step w q) (fun s i => s.Exact w q i) (start q c) is := by
  refine states_iff_along (I := State.Inv q) (fun s i hi hd he => (State.step_decides w hi hd).1 he) (fun _ => State.Inv.balanced)
    (fun s i hi hd hn => (State.step_decides w hi hd).2 hn) ?_ hdoc
  cases c with
  | namei => exact ⟨rfl, by unfold start; cases q.hasbuf <;> rfl⟩
  | lookup startdir nameptr pathlen => exact rfl
  | relookup dvp nameptr islastcn isdotdot => exact ⟨rfl, rfl⟩

/-! ## A directory and a file in it -/

/-- A root directory `false` and the vnode `true`. -/
def small : World Bool where
  type v := if v then .other else .VDIR
  vroot := not
  covered _ := false
  union _ := false
  rootvnode := false
  rootdir := false
  cdir := false

/-- Deletion, as the system calls ask for it, by a client that may only read. -/
def readOnly : Request := { nameiop := .DELETE, lockparent := true, lockleaf := true, rdonly := true }

/-- The steps of a path with one component, which `VOP_LOOKUP` finds. -/
def oneName (path : List UInt8) (vp : Bool) : List (Input Bool) :=
  [.copyin (.ok path), .tick, .tick, .tick, .lookup (.found vp 0 true), .mounted .none]

theorem lookup_balance_file :
    (final (step small readOnly) (start readOnly .namei) (oneName [97] true)).Balanced readOnly :=
  (lookup_balance small readOnly .namei (oneName [97] true)
    ⟨trivial, trivial, trivial, trivial, Nat.zero_le _, trivial, trivial⟩).2
    ⟨trivial, trivial, trivial, fun h => absurd h (by decide), trivial, fun _ _ => ⟨rfl, rfl, by decide⟩, trivial⟩ _
    (final_mem_states _ _ _)

/-- The lock of `.` is given back twice when its deletion is refused. -/
theorem dot_unlocked_twice :
    Along (step small readOnly) State.Documented (start readOnly .namei) (oneName [DOT] false) ∧
      ¬∀ t ∈ states (step small readOnly) (start readOnly .namei) (oneName [DOT] false), t.Balanced readOnly := by
  refine ⟨⟨trivial, trivial, trivial, trivial, Nat.zero_le _, trivial, trivial⟩, fun h => ?_⟩
  have hfault : (final (step small readOnly) (start readOnly .namei) (oneName [DOT] false)).led.fault = true := by decide
  exact State.not_balanced hfault (h _ (final_mem_states _ _ _))

end BsdKernel.Namei
