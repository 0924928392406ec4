import BsdKernel.Kern.Proccnt
import Mathlib.Tactic
/-!
# Runs of the process counts

The table of counters is a function from uids to counts (`Counters`), and the counts are
what the processes and the calls in progress come to (`Inv`).
-/

namespace BsdKernel.Proccnt

open BsdKernel.Lib

set_option linter.unusedSectionVars false

/-! ## The counters -/

/-- The count of a uid in the table. -/
def cnt (uid : Nat) (l : List Uidinfo) : Int := ((find uid l).map Uidinfo.proccnt).getD 0

/-- The table has one counter for each uid that counts for something, with the count `f`. -/
structure Counters (l : List Uidinfo) (f : Nat → Int) : Prop where
  unique : (l.map Uidinfo.uid).Nodup
  pos : ∀ uip ∈ l, 0 < uip.proccnt
  count : ∀ uid, cnt uid l = f uid

theorem find_cons (uid : Nat) (uip : Uidinfo) (l : List Uidinfo) :
    find uid (uip :: l) = if uip.uid = uid then some uip else find uid l := by
  unfold find
  rw [List.find?_cons]
  by_cases h : uip.uid = uid <;> simp [h]

theorem find_mem {uid : Nat} {l : List Uidinfo} {uip : Uidinfo} (h : find uid l = some uip) : uip ∈ l ∧ uip.uid = uid :=
  ⟨List.mem_of_find?_eq_some h, by simpa [find] using List.find?_some h⟩

theorem find_of_mem {l : List Uidinfo} (hu : (l.map Uidinfo.uid).Nodup) {uip : Uidinfo} (h : uip ∈ l) :
    find uip.uid l = some uip := by
  induction l with
  | nil => simp at h
  | cons q l ih =>
    rw [List.map_cons, List.nodup_cons] at hu
    rw [find_cons]
    rcases List.mem_cons.1 h with rfl | h
    · rw [if_pos rfl]
    · have hne : q.uid ≠ uip.uid := fun he => hu.1 (by rw [he]; exact List.mem_map_of_mem h)
      rw [if_neg hne, ih hu.2 h]

theorem find_eq_none {uid : Nat} {l : List Uidinfo} : find uid l = none ↔ uid ∉ l.map Uidinfo.uid := by
  simp [find]

theorem map_uid_setCnt (uid : Nat) (n : Int) (l : List Uidinfo) : (setCnt uid n l).map Uidinfo.uid = l.map Uidinfo.uid := by
  induction l with
  | nil => rfl
  | cons q l ih =>
    unfold setCnt
    split <;> simp [ih]

theorem mem_setCnt {uid : Nat} {n : Int} {l : List Uidinfo} {uip : Uidinfo} (h : uip ∈ setCnt uid n l) :
    uip ∈ l ∨ uip.proccnt = n := by
  induction l with
  | nil => simp [setCnt] at h
  | cons q l ih =>
    unfold setCnt at h
    split at h
    · rcases List.mem_cons.1 h with rfl | h
      · exact Or.inr rfl
      · exact Or.inl (List.mem_cons_of_mem _ h)
    · rcases List.mem_cons.1 h with rfl | h
      · exact Or.inl (by simp)
      · exact (ih h).imp_left (List.mem_cons_of_mem _)

theorem cnt_setCnt {uid : Nat} {l : List Uidinfo} (hl : (find uid l).isSome) (n : Int) (v : Nat) :
    cnt v (setCnt uid n l) = Function.update (cnt · l) uid n v := by
  induction l with
  | nil => simp [find] at hl
  | cons q l ih =>
    unfold setCnt
    by_cases hq : q.uid = uid
    · rw [if_pos hq]
      by_cases hv : v = uid
      · simp [cnt, find_cons, hq, hv]
      · simp [cnt, find_cons, hq, hv, Ne.symm hv]
    · rw [if_neg hq]
      rw [find_cons, if_neg hq] at hl
      have := ih hl
      unfold cnt at this ⊢
      by_cases hv : v = uid
      · subst hv
        simpa [find_cons, hq] using this
      · by_cases hqv : q.uid = v
        · simp [find_cons, hqv, hv]
        · simpa [find_cons, hqv, hv] using this

theorem cnt_unlink {uid : Nat} {l : List Uidinfo} (hu : (l.map Uidinfo.uid).Nodup) (v : Nat) :
    cnt v (unlink uid l) = Function.update (cnt · l) uid 0 v := by
  induction l with
  | nil => by_cases hv : v = uid <;> simp [cnt, find, unlink, hv]
  | cons q l ih =>
    rw [List.map_cons, List.nodup_cons] at hu
    have ih := ih hu.2
    unfold unlink at ih ⊢
    by_cases hq : q.uid = uid
    · rw [List.eraseP_cons_of_pos (by simpa using hq)]
      by_cases hv : v = uid
      · have hnone : find uid l = none := find_eq_none.2 (hq ▸ hu.1)
        simp [cnt, hv, hnone]
      · simp [cnt, find_cons, hq, hv, Ne.symm hv]
    · rw [List.eraseP_cons_of_neg (by simpa using hq)]
      unfold cnt at ih ⊢
      by_cases hv : v = uid
      · subst hv
        simpa [find_cons, hq] using ih
      · by_cases hqv : q.uid = v
        · simp [find_cons, hqv, hv]
        · simpa [find_cons, hqv, hv] using ih

namespace Counters
variable {l : List Uidinfo} {f : Nat → Int} (h : Counters l f) {uid : Nat}
include h

theorem of_find {uip : Uidinfo} (hf : find uid l = some uip) : uip.proccnt = f uid ∧ 0 < f uid := by
  have hc : uip.proccnt = f uid := by
    rw [← h.count uid]
    simp [cnt, hf]
  exact ⟨hc, hc ▸ h.pos uip (find_mem hf).1⟩

theorem of_none (hf : find uid l = none) : f uid = 0 := by
  rw [← h.count uid]
  simp [cnt, hf]

theorem congr {g : Nat → Int} (he : ∀ v, g v = f v) : Counters l g :=
  ⟨h.unique, h.pos, fun v => (h.count v).trans (he v).symm⟩

theorem setCnt {d : Int} (hf : (find uid l).isSome) (hn : 0 < f uid + d) :
    Counters (setCnt uid (f uid + d) l) fun v => f v + if uid = v then d else 0 where
  unique := by
    rw [map_uid_setCnt]
    exact h.unique
  pos := fun uip hm => by
    rcases mem_setCnt hm with hm | hm
    · exact h.pos uip hm
    · omega
  count := fun v => by
    rw [cnt_setCnt hf]
    by_cases hv : uid = v
    · simp [hv]
    · simp [hv, Ne.symm hv, h.count]

theorem unlink (hone : f uid = 1) : Counters (unlink uid l) fun v => f v + if uid = v then -1 else 0 where
  unique := h.unique.sublist (List.Sublist.map _ (List.eraseP_sublist))
  pos := fun uip hm => h.pos uip (List.mem_of_mem_eraseP hm)
  count := fun v => by
    rw [cnt_unlink h.unique]
    by_cases hv : uid = v
    · simp [← hv, hone]
    · simp [hv, Ne.symm hv, h.count]

/-- `chgproccnt(uid, 1)` with a counter for the uid. -/
theorem inc (uid : Nat) (hf : (find uid l).isSome) :
    ∃ l', chgproccnt l uid 1 = .ok (.ret l' (f uid + 1)) ∧ Counters l' fun v => f v + if uid = v then 1 else 0 := by
  obtain ⟨uip, hu⟩ := Option.isSome_iff_exists.1 hf
  obtain ⟨hc, hpos⟩ := h.of_find hu
  refine ⟨Proccnt.setCnt uid (f uid + 1) l, ?_, h.setCnt hf (by omega)⟩
  unfold chgproccnt
  simp only [hu, hc]
  rw [if_pos (by omega)]

/-- `chgproccnt(uid, -1)` of a uid that counts for something. -/
theorem dec (uid : Nat) (hpos : 0 < f uid) :
    ∃ l', decproccnt l uid = .ok l' ∧ Counters l' fun v => f v + if uid = v then -1 else 0 := by
  cases hu : find uid l with
  | none => exact absurd (h.of_none hu) (by omega)
  | some uip =>
    obtain ⟨hc, -⟩ := h.of_find hu
    unfold decproccnt chgproccnt
    simp only [hu, hc]
    by_cases h1 : f uid + -1 > 0
    · rw [if_pos h1]
      exact ⟨_, rfl, h.setCnt (by simp [hu]) h1⟩
    · rw [if_neg h1, if_neg (by omega)]
      exact ⟨_, rfl, h.unlink (by omega)⟩

theorem insert (hf : find uid l = none) : Counters (⟨uid, 1⟩ :: l) fun v => f v + if uid = v then 1 else 0 where
  unique := by
    rw [List.map_cons, List.nodup_cons]
    exact ⟨find_eq_none.1 hf, h.unique⟩
  pos := fun uip hm => by
    rcases List.mem_cons.1 hm with rfl | hm
    · simp
    · exact h.pos uip hm
  count := fun v => by
    have := h.count v
    unfold cnt at this ⊢
    by_cases hv : uid = v
    · simp [find_cons, ← hv, h.of_none hf]
    · simpa [find_cons, hv] using this

end Counters

/-! ## The invariant -/

variable {P : Type} [DecidableEq P] {maxproc : Int} {s s' : Kernel P} {p : P}

/-- The invariant, apart from the counters. -/
structure Base (maxproc : Int) (s : Kernel P) : Prop where
  nprocs : s.nprocs = (s.allproc.length + s.zombproc.length : Nat)
  bound : s.nprocs ≤ maxproc
  nodup : s.procs.Nodup
  zombies : ∀ p ∈ s.zombproc, s.call p = .none ∧ (s.ruid p).isSome
  calls : ∀ p, s.call p ≠ .none → p ∈ s.allproc
  forks : ∀ p uid, ((∃ lim, s.call p = .forkUid uid lim) ∨ s.child p = some uid) → s.ruid p = some uid
  kids : ∀ p uid p2, s.call p = .forkCred uid p2 → p2 ∈ s.allproc ∧ s.call p2 = .none ∧ s.ruid p2 = none
  one : ∀ p q uid uid' p2, s.call p = .forkCred uid p2 → s.call q = .forkCred uid' p2 → p = q

/-- The invariant of the runs. -/
structure Inv (maxproc : Int) (s : Kernel P) : Prop where
  base : Base maxproc s
  counters : Counters s.uihash fun uid => s.users uid

theorem Inv.limits (h : Inv maxproc s) : s.Limits maxproc where
  nprocs := h.base.nprocs
  bound := h.base.bound
  unique := h.counters.unique
  count := fun uip hm => (h.counters.of_find (find_of_mem h.counters.unique hm)).1
  listed := fun uid hu => by
    cases hf : find uid s.uihash with
    | none =>
      have := h.counters.of_none hf
      omega
    | some uip => exact ⟨uip, find_mem hf⟩

theorem users_update (hn : s.procs.Nodup) (hp : p ∈ s.procs) (hprocs : s'.procs = s.procs)
    (hcall : ∀ q, q ≠ p → s'.call q = s.call q) (hruid : ∀ q, q ≠ p → s'.ruid q = s.ruid q) (uid : Nat) :
    s'.users uid + s.weight uid p = s.users uid + s'.weight uid p := by
  unfold Kernel.users
  rw [hprocs]
  refine tally_update hn hp fun q _ hq => ?_
  unfold Kernel.weight Kernel.own Kernel.child
  rw [hcall q hq, hruid q hq]

theorem weight_le_users (hp : p ∈ s.procs) (uid : Nat) : s.weight uid p ≤ s.users uid := le_tally hp

namespace Base
variable (hB : Base maxproc s)
include hB

theorem mem_procs (hp : p ∈ s.allproc) : p ∈ s.procs := List.mem_append_left _ hp

theorem not_kid (hp : (s.ruid p).isSome ∨ s.call p ≠ .none) (q : P) (uid : Nat) : s.call q ≠ .forkCred uid p := by
  intro h
  obtain ⟨-, hc, hr⟩ := hB.kids q uid p h
  rcases hp with hp | hp
  · simp [hr] at hp
  · exact hp hc

/-- A process goes to another place of its call. -/
theorem setCall (hp : p ∈ s.allproc) (hk : (s.ruid p).isSome ∨ s.call p ≠ .none) {c : Call P}
    (hc : ∀ uid p2, c ≠ .forkCred uid p2)
    (hf : ∀ uid lim, c = .forkUid uid lim ∨ c = .forkProc uid lim → s.ruid p = some uid) : Base maxproc (s.setCall p c) where
  nprocs := hB.nprocs
  bound := hB.bound
  nodup := hB.nodup
  zombies := fun q hq => by
    have hqp : q ≠ p := by
      intro he
      have hn := List.nodup_append.1 hB.nodup
      exact hn.2.2 p hp q hq he.symm
    simpa [Kernel.setCall, hqp] using hB.zombies q hq
  calls := fun q hq => by
    by_cases he : q = p
    · exact he ▸ hp
    · exact hB.calls q (by simpa [Kernel.setCall, he] using hq)
  forks := fun q uid hq => by
    by_cases he : q = p
    · subst he
      simp only [Kernel.setCall, Kernel.child, Function.update_self] at hq ⊢
      rcases hq with ⟨lim, hq⟩ | hq
      · exact hf uid lim (Or.inl hq)
      · cases c with
        | forkProc u lim => exact hf uid lim (Or.inr (by simpa using hq))
        | forkCred u p2 => exact absurd rfl (hc u p2)
        | _ => simp at hq
    · simp only [Kernel.setCall, Kernel.child, Function.update_of_ne he] at hq ⊢
      exact hB.forks q uid hq
  kids := fun q uid p2 hq => by
    by_cases he : q = p
    · subst he
      exact absurd (by simpa [Kernel.setCall] using hq) (hc uid p2)
    · have hq' : s.call q = .forkCred uid p2 := by simpa [Kernel.setCall, he] using hq
      have h2 : p2 ≠ p := fun h => hB.not_kid hk q uid (h ▸ hq')
      simpa [Kernel.setCall, h2] using hB.kids q uid p2 hq'
  one := fun q r uid uid' p2 hq hr => by
    have hne : ∀ t u, (s.setCall p c).call t = .forkCred u p2 → t ≠ p := by
      rintro t u ht rfl
      exact hc u p2 (by simpa [Kernel.setCall] using ht)
    have hqp := hne q uid hq
    have hrp := hne r uid' hr
    exact hB.one q r uid uid' p2 (by simpa [Kernel.setCall, hqp] using hq) (by simpa [Kernel.setCall, hrp] using hr)

theorem setTable (l : List Uidinfo) : Base maxproc (s.setTable l) :=
  ⟨hB.nprocs, hB.bound, hB.nodup, hB.zombies, hB.calls, hB.forks, hB.kids, hB.one⟩

end Base

/-! ## The calls -/

/-- The weight at each place of a call. -/
def Call.weight (ruid : Option Nat) (uid : Nat) : Call P → Nat
  | .none | .forkUid _ _ => if ruid = some uid then 1 else 0
  | .forkProc u _ | .forkCred u _ => (if ruid = some uid then 1 else 0) + if u = uid then 1 else 0
  | .setuidUid _ => 0
  | .setuidCred u => if u = uid then 1 else 0

theorem weight_eq (uid : Nat) : s.weight uid p = (s.call p).weight (s.ruid p) uid := by
  unfold Kernel.weight Kernel.own Kernel.child
  cases s.call p <;> simp [Call.weight]

theorem users_setCall (hB : Base maxproc s) (hp : p ∈ s.allproc) (l : List Uidinfo) (c : Call P) (uid : Nat) :
    ((s.setTable l).setCall p c).users uid + (s.call p).weight (s.ruid p) uid = s.users uid + c.weight (s.ruid p) uid := by
  have h := @users_update _ _ s ((s.setTable l).setCall p c) p hB.nodup (hB.mem_procs hp) rfl
    (fun q hq => by simp [Kernel.setCall, Kernel.setTable, hq]) (fun _ _ => rfl) uid
  rw [weight_eq, weight_eq] at h
  simpa [Kernel.setCall, Kernel.setTable] using h

/-- The test of `fork1`, once the child is counted. -/
theorem forkLimit_inv (hB : Base maxproc s) (hp : p ∈ s.allproc) {uid : Nat} (hr : s.ruid p = some uid)
    (hc : s.call p = .none ∨ ∃ lim, s.call p = .forkUid uid lim) {l : List Uidinfo}
    (hl : Counters l fun v => (s.users v : Int) + if uid = v then 1 else 0) (lim : Int) :
    ∃ s', (s.setTable l).forkLimit p uid lim (s.users uid + 1) = .ok s' ∧ Inv maxproc s' ∧ s.Within s' := by
  have husers : ∀ l c v, ((s.setTable l).setCall p c).users v + (if s.ruid p = some v then 1 else 0) =
      s.users v + c.weight (s.ruid p) v := by
    intro l c v
    have h := users_setCall hB hp l c v
    rcases hc with hc | ⟨lim, hc⟩ <;> rwa [hc] at h
  have hbase : ∀ l c, (∀ u q, c ≠ .forkCred u q) → (∀ u lim, c = .forkUid u lim ∨ c = .forkProc u lim → s.ruid p = some u) →
      Base maxproc ((s.setTable l).setCall p c) := fun l c h₁ h₂ =>
    (hB.setTable l).setCall hp (Or.inl (show (s.ruid p).isSome by simp [hr])) h₁ h₂
  unfold Kernel.forkLimit
  by_cases hover : uid ≠ 0 ∧ (s.users uid : Int) + 1 > lim
  · rw [if_pos hover]
    obtain ⟨l', hdec, hl'⟩ := hl.dec uid (by simp)
    refine ⟨(s.setTable l').setCall p .none, ?_, ⟨hbase l' .none (by simp) (by simp), hl'.congr fun v => ?_⟩, ?_⟩
    · simp only [Kernel.setTable] at hdec ⊢
      rw [hdec]
      rfl
    · rw [Nat.add_right_cancel (husers l' .none v)]
      split <;> simp
    · intro q u lim' hq hq' _
      by_cases he : q = p
      · subst he
        simp [Kernel.setCall] at hq
      · exact absurd (by simpa [Kernel.setCall, he, Kernel.setTable] using hq) hq'
  · rw [if_neg hover]
    have hgrow : ∀ v, ((s.setTable l).setCall p (.forkProc uid lim)).users v = s.users v + if uid = v then 1 else 0 := by
      intro v
      have hv := husers l (.forkProc uid lim) v
      simp only [Call.weight] at hv
      omega
    refine ⟨_, rfl, ⟨hbase l _ (by simp) ?_, hl.congr fun v => ?_⟩, ?_⟩
    · rintro u lim' (h | h)
      · simp at h
      · simp only [Call.forkProc.injEq] at h
        rw [hr, h.1]
    · rw [hgrow]
      split <;> simp
    · intro q u lim' hq hq' hne
      by_cases he : q = p
      · subst he
        simp only [Kernel.setCall, Function.update_self, Call.forkProc.injEq] at hq
        obtain ⟨rfl, rfl⟩ := hq
        rw [hgrow, if_pos rfl]
        push_cast
        by_contra hgt
        exact hover ⟨hne, not_le.1 hgt⟩
      · exact absurd (by simpa [Kernel.setCall, he, Kernel.setTable] using hq) hq'

theorem within_of (h : ∀ q u lim, s'.call q = .forkProc u lim → s.call q = .forkProc u lim) : s.Within s' :=
  fun q u lim hq hq' _ => absurd (h q u lim hq) hq'

theorem within_setCall {t : Kernel P} (ht : t.call = s.call) {c : Call P} (hc : ∀ u lim, c ≠ .forkProc u lim) :
    s.Within (t.setCall p c) := by
  refine within_of fun q u lim hq => ?_
  by_cases he : q = p
  · subst he
    exact absurd (by simpa [Kernel.setCall] using hq) (hc u lim)
  · simpa [Kernel.setCall, he, ht] using hq

namespace Inv
variable (hI : Inv maxproc s)
include hI

theorem fork1 (hp : p ∈ s.allproc) (hc : s.call p = .none) {uid : Nat} (hr : s.ruid p = some uid) (lim : Int) :
    ∃ s', s.fork1 maxproc p uid lim = .ok s' ∧ Inv maxproc s' ∧ s.Within s' := by
  unfold Kernel.fork1
  split_ifs
  · exact ⟨s, rfl, hI, within_of fun _ _ _ h => h⟩
  · cases hf : find uid s.uihash with
    | none =>
      have hchg : chgproccnt s.uihash uid 1 = .ok .malloc := by
        unfold chgproccnt
        simp [hf]
      rw [hchg]
      refine ⟨s.setCall p (.forkUid uid lim), rfl, ⟨hI.base.setCall hp (Or.inl (by simp [hr])) (by simp) ?_, ?_⟩,
        within_setCall rfl (by simp)⟩
      · rintro u lim' (h | h)
        · simp only [Call.forkUid.injEq] at h
          rw [hr, h.1]
        · simp at h
      · refine hI.counters.congr fun v => ?_
        have hv := users_setCall hI.base hp s.uihash (.forkUid uid lim) v
        rw [hc] at hv
        exact congrArg _ (Nat.add_right_cancel hv)
    | some uip =>
      obtain ⟨l', hinc, hl'⟩ := hI.counters.inc uid (by simp [hf])
      rw [hinc]
      exact forkLimit_inv hI.base hp hr (Or.inl hc) hl' lim

theorem setuid (hp : p ∈ s.allproc) (hc : s.call p = .none) {ruid : Nat} (hr : s.ruid p = some ruid) (uid : Nat)
    (suser : Bool) : ∃ s', s.setuid p ruid uid suser = .ok s' ∧ Inv maxproc s' ∧ s.Within s' := by
  unfold Kernel.setuid
  split_ifs
  · exact ⟨s, rfl, hI, within_of fun _ _ _ h => h⟩
  · have hself : 1 ≤ s.users ruid := by
      have := weight_le_users (s := s) (hI.base.mem_procs hp) ruid
      rwa [weight_eq, hc, hr, Call.weight, if_pos rfl] at this
    obtain ⟨l, hdec, hl⟩ := hI.counters.dec ruid (by omega)
    rw [hdec]
    have hbase := fun l c h₁ h₂ => (hI.base.setTable l).setCall hp (c := c) (Or.inl (show (s.ruid p).isSome by simp [hr])) h₁ h₂
    have husers : ∀ l c v, ((s.setTable l).setCall p c).users v + (if ruid = v then 1 else 0) =
        s.users v + c.weight (s.ruid p) v := by
      intro l c v
      have h := users_setCall hI.base hp l c v
      rw [hc, hr] at h
      simpa [Call.weight, hr] using h
    cases hf : find uid l with
    | none =>
      have hchg : chgproccnt l uid 1 = .ok .malloc := by
        unfold chgproccnt
        simp [hf]
      refine ⟨(s.setTable l).setCall p (.setuidUid uid), ?_, ⟨hbase l _ (by simp) (by simp), hl.congr fun v => ?_⟩,
        within_setCall rfl (by simp)⟩
      · simp only [hchg, bind, Except.bind]
        rfl
      · have hv := husers l (.setuidUid uid) v
        simp only [Call.weight] at hv
        split_ifs at hv ⊢ <;> omega
    | some uip =>
      obtain ⟨l', hinc, hl'⟩ := hl.inc uid (by simp [hf])
      refine ⟨(s.setTable l').setCall p (.setuidCred uid), ?_, ⟨hbase l' _ (by simp) (by simp), hl'.congr fun v => ?_⟩,
        within_setCall rfl (by simp)⟩
      · simp only [hinc, bind, Except.bind]
        rfl
      · have hv := husers l' (.setuidCred uid) v
        simp only [Call.weight] at hv
        split_ifs at hv ⊢ <;> omega

theorem exit1 (hp : p ∈ s.allproc) (hc : s.call p = .none) (hr : (s.ruid p).isSome) :
    Inv maxproc (s.exit1 p) := by
  have hperm : (s.exit1 p).procs.Perm s.procs := by
    have h₁ : (s.allproc.erase p ++ p :: s.zombproc).Perm (p :: (s.allproc.erase p ++ s.zombproc)) := List.perm_middle
    have h₂ : (p :: (s.allproc.erase p ++ s.zombproc)).Perm (s.allproc ++ s.zombproc) :=
      List.Perm.append_right s.zombproc (List.perm_cons_erase hp).symm
    exact h₁.trans h₂
  have hlen := List.length_erase_of_mem hp
  have hpos := List.length_pos_of_mem hp
  have hB := hI.base
  refine ⟨⟨?_, hB.bound, hperm.nodup_iff.2 hB.nodup, ?_, ?_, hB.forks, ?_, hB.one⟩, ?_⟩
  · have := hB.nprocs
    simp only [Kernel.exit1, List.length_cons]
    omega
  · intro q hq
    rcases List.mem_cons.1 hq with rfl | hq
    · exact ⟨hc, hr⟩
    · exact hB.zombies q hq
  · intro q hq
    have hqp : q ≠ p := fun he => hq (he ▸ hc)
    exact (List.mem_erase_of_ne hqp).2 (hB.calls q hq)
  · intro q uid p2 hq
    obtain ⟨h₁, h₂, h₃⟩ := hB.kids q uid p2 hq
    have h2p : p2 ≠ p := fun he => by simp [← he, h₃] at hr
    exact ⟨(List.mem_erase_of_ne h2p).2 h₁, h₂, h₃⟩
  · refine hI.counters.congr fun v => ?_
    have hsame : (s.exit1 p).users v = s.users v := tally_perm hperm
    rw [hsame]

theorem wait1 (hp : p ∈ s.zombproc) : ∃ s', s.step maxproc (.wait1 p) = .ok s' ∧ Inv maxproc s' ∧ s.Within s' := by
  have hB := hI.base
  obtain ⟨hc, hr⟩ := hB.zombies p hp
  obtain ⟨uid, hr⟩ := Option.isSome_iff_exists.1 hr
  have hmem : p ∈ s.procs := List.mem_append_right _ hp
  have hw : ∀ v, s.weight v p = if uid = v then 1 else 0 := by
    intro v
    rw [weight_eq, hc, hr]
    simp [Call.weight]
  have hself : 1 ≤ s.users uid := by
    have := weight_le_users (s := s) hmem uid
    rwa [hw, if_pos rfl] at this
  have hn := List.nodup_append.1 hB.nodup
  obtain ⟨l, hdec, hl⟩ := hI.counters.dec uid (by omega)
  have hnot : p ∉ s.allproc := fun h => hn.2.2 p h p hp rfl
  have herase : s.procs.erase p = s.allproc ++ s.zombproc.erase p := List.erase_append_right _ hnot
  have hlen := List.length_erase_of_mem hp
  have hpos := List.length_pos_of_mem hp
  have hnprocs := hB.nprocs
  refine ⟨{ s with uihash := l, zombproc := s.zombproc.erase p, nprocs := s.nprocs - 1 }, ?_,
    ⟨⟨?_, ?_, ?_, ?_, hB.calls, hB.forks, hB.kids, hB.one⟩, hl.congr fun v => ?_⟩, within_of fun _ _ _ h => h⟩
  · simp only [Kernel.step, hr, Option.elim_some, Kernel.wait1, hdec]
    rfl
  · simp only
    omega
  · have := hB.bound
    simp only
    omega
  · simp only [Kernel.procs]
    rw [← herase]
    exact hB.nodup.erase p
  · intro q hq
    exact hB.zombies q (List.mem_of_mem_erase hq)
  · have hv : tally (s.weight v) (s.procs.erase p) + s.weight v p = s.users v := tally_erase hmem
    rw [hw, herase] at hv
    have hshow : Kernel.users { s with uihash := l, zombproc := s.zombproc.erase p, nprocs := s.nprocs - 1 } v =
        tally (s.weight v) (s.allproc ++ s.zombproc.erase p) := rfl
    rw [hshow]
    split_ifs at hv ⊢ <;> omega

/-- The counter of `fork1` comes into the table. -/
theorem malloc_forkUid {uid : Nat} {lim : Int} (hc : s.call p = .forkUid uid lim)
    (hok : find uid s.uihash = none ∨ uid ≠ 0 ∧ lim < 1) (new : P) :
    ∃ s', s.malloc p new = .ok s' ∧ Inv maxproc s' ∧ s.Within s' := by
  have hB := hI.base
  have hp : p ∈ s.allproc := hB.calls p (by simp [hc])
  have hr : s.ruid p = some uid := hB.forks p uid (Or.inl ⟨lim, hc⟩)
  have hmalloc : s.malloc p new = (s.setTable (⟨uid, 1⟩ :: s.uihash)).forkLimit p uid lim 1 := by
    unfold Kernel.malloc
    rw [hc]
  rw [hmalloc]
  cases hf : find uid s.uihash with
  | none =>
    have h := forkLimit_inv hB hp hr (Or.inr ⟨lim, hc⟩) (hI.counters.insert hf) lim
    have h0 := hI.counters.of_none hf
    rwa [h0] at h
  | some uip =>
    -- the counter goes again, as the limit is 0
    have hover : uid ≠ 0 ∧ (1 : Int) > lim := hok.resolve_left (by simp [hf])
    have hdec : decproccnt (⟨uid, 1⟩ :: s.uihash) uid = .ok s.uihash := by
      unfold decproccnt chgproccnt
      simp only [find_cons, if_true]
      norm_num
      simp only [unlink]
      rw [List.eraseP_cons_of_pos (by simp)]
      rfl
    refine ⟨s.setCall p .none, ?_, ⟨hB.setCall hp (Or.inl (by simp [hr])) (by simp) (by simp), ?_⟩, within_setCall rfl (by simp)⟩
    · unfold Kernel.forkLimit
      rw [if_pos hover]
      simp only [Kernel.setTable, hdec]
      rfl
    · refine hI.counters.congr fun v => ?_
      have hv := users_setCall hB hp s.uihash .none v
      rw [hc] at hv
      exact congrArg _ (Nat.add_right_cancel hv)

/-- The child of `fork1` is linked. -/
theorem malloc_forkProc {uid : Nat} {lim : Int} (hc : s.call p = .forkProc uid lim) (hroom : s.nprocs < maxproc) {new : P}
    (hnew : new ∉ s.procs) : ∃ s', s.malloc p new = .ok s' ∧ Inv maxproc s' ∧ s.Within s' := by
  have hB := hI.base
  have hp : p ∈ s.allproc := hB.calls p (by simp [hc])
  have hnp : p ≠ new := fun he => hnew (he ▸ hB.mem_procs hp)
  have hr : s.ruid p = some uid := hB.forks p uid (Or.inr (by simp [Kernel.child, hc]))
  have hold : ∀ q ∈ s.procs, q ≠ new := fun q hq he => hnew (he ▸ hq)
  have hcall : ∀ q, q ≠ p → q ≠ new →
      Function.update (Function.update s.call new .none) p (.forkCred uid new) q = s.call q := by
    intro q hqp hqn
    rw [Function.update_of_ne hqp, Function.update_of_ne hqn]
  have hnone : ∀ q, q ∉ s.allproc → s.call q = .none := fun q hq => by
    by_contra h
    exact hq (hB.calls q h)
  have hnewcall : Function.update (Function.update s.call new .none) p (.forkCred uid new) new = .none := by
    rw [Function.update_of_ne (Ne.symm hnp), Function.update_self]
  have hsame : ∀ q, q ≠ p → Function.update (Function.update s.call new .none) p (.forkCred uid new) q = s.call q := by
    intro q hq
    by_cases he : q = new
    · rw [he, hnewcall, hnone new fun h => hnew (hB.mem_procs h)]
    · exact hcall q hq he
  have hkid : ∀ q u, s.call q ≠ .forkCred u new := fun q u h => hnew (hB.mem_procs (hB.kids q u new h).1)
  let s' : Kernel P := { s with
    nprocs := s.nprocs + 1
    allproc := new :: s.allproc
    ruid := Function.update s.ruid new none
    call := Function.update (Function.update s.call new .none) p (.forkCred uid new) }
  have hruid : ∀ q, q ≠ new → s'.ruid q = s.ruid q := fun q hq => Function.update_of_ne hq _ _
  refine ⟨s', ?_, ⟨⟨?_, ?_, ?_, ?_, ?_, ?_, ?_, ?_⟩, hI.counters.congr fun v => ?_⟩, within_of fun q u lim' hq => ?_⟩
  · unfold Kernel.malloc
    rw [hc]
    rfl
  · have := hB.nprocs
    show s.nprocs + 1 = ((new :: s.allproc).length + s.zombproc.length : Nat)
    rw [List.length_cons]
    omega
  · show s.nprocs + 1 ≤ maxproc
    omega
  · exact List.nodup_cons.2 ⟨hnew, hB.nodup⟩
  · intro q hq
    have hqn := hold q (List.mem_append_right _ hq)
    have hqp : q ≠ p := fun he => by
      have := (hB.zombies q hq).1
      rw [he, hc] at this
      cases this
    obtain ⟨h₁, h₂⟩ := hB.zombies q hq
    exact ⟨(hsame q hqp).trans h₁, by rw [hruid q hqn]; exact h₂⟩
  · intro q hq
    by_cases he : q = p
    · exact List.mem_cons_of_mem _ (he ▸ hp)
    · exact List.mem_cons_of_mem _ (hB.calls q (by rwa [← hsame q he]))
  · intro q u hq
    by_cases he : q = p
    · subst he
      rw [hruid q hnp]
      have hu : uid = u := by simpa [Kernel.child, s'] using hq
      rw [hr, hu]
    · have hqc : s'.call q = s.call q := hsame q he
      unfold Kernel.child at hq
      rw [hqc] at hq
      have hqn : q ≠ new := by
        rintro rfl
        have := hnone q fun h => hnew (hB.mem_procs h)
        simp [this] at hq
      rw [hruid q hqn]
      exact hB.forks q u hq
  · intro q u p2 hq
    by_cases he : q = p
    · subst he
      have hnew2 : new = p2 := by
        have : Call.forkCred uid new = Call.forkCred u p2 := by simpa [s'] using hq
        exact (Call.forkCred.inj this).2
      subst hnew2
      exact ⟨List.mem_cons_self, hnewcall, Function.update_self _ _ _⟩
    · rw [show s'.call q = s.call q from hsame q he] at hq
      obtain ⟨h₁, h₂, h₃⟩ := hB.kids q u p2 hq
      have h2p : p2 ≠ p := fun he2 => by rw [he2, hr] at h₃; cases h₃
      exact ⟨List.mem_cons_of_mem _ h₁, (hsame p2 h2p).trans h₂, (hruid p2 (hold p2 (hB.mem_procs h₁))).trans h₃⟩
  · intro q r u u' p2 hq hr'
    have hp2 : ∀ t w, t = p → s'.call t = .forkCred w p2 → p2 = new := by
      rintro t w rfl ht
      have : Call.forkCred uid new = Call.forkCred w p2 := by simpa [s'] using ht
      exact (Call.forkCred.inj this).2.symm
    have hother : ∀ t w, t ≠ p → s'.call t = .forkCred w p2 → s.call t = .forkCred w p2 := by
      intro t w ht h
      rwa [show s'.call t = s.call t from hsame t ht] at h
    by_cases hqp : q = p <;> by_cases hrp : r = p
    · rw [hqp, hrp]
    · exact absurd (hp2 q u hqp hq ▸ hother r u' hrp hr') (hkid r u')
    · exact absurd (hp2 r u' hrp hr' ▸ hother q u hqp hq) (hkid q u)
    · exact hB.one q r u u' p2 (hother q u hqp hq) (hother r u' hrp hr')
  · have hw : ∀ q ∈ s.procs, s'.weight v q = s.weight v q := by
      intro q hq
      have hqr := hruid q (hold q hq)
      by_cases he : q = p
      · subst he
        rw [weight_eq, weight_eq, hc, hqr, show s'.call q = .forkCred uid new from Function.update_self _ _ _]
        rfl
      · unfold Kernel.weight Kernel.own Kernel.child
        rw [show s'.call q = s.call q from hsame q he, hqr]
    have hnw : s'.weight v new = 0 := by
      rw [weight_eq, show s'.call new = .none from hnewcall, show s'.ruid new = none from Function.update_self _ _ _]
      rfl
    have husers : s'.users v = s'.weight v new + tally (s'.weight v) s.procs := tally_cons _ _ _
    rw [husers, hnw, tally_congr hw]
    simp [Kernel.users]
  · by_cases he : q = p
    · subst he
      exact absurd hq (by simp [s'])
    · rwa [show s'.call q = s.call q from hsame q he] at hq

/-- The child of `fork1` gets its credentials. -/
theorem malloc_forkCred {uid : Nat} {p2 : P} (hc : s.call p = .forkCred uid p2) (new : P) :
    ∃ s', s.malloc p new = .ok s' ∧ Inv maxproc s' ∧ s.Within s' := by
  have hB := hI.base
  have hp : p ∈ s.allproc := hB.calls p (by simp [hc])
  have hr : s.ruid p = some uid := hB.forks p uid (Or.inr (by simp [Kernel.child, hc]))
  obtain ⟨hp2, hc2, hr2⟩ := hB.kids p uid p2 hc
  have hne : p2 ≠ p := fun he => by rw [he, hr] at hr2; cases hr2
  have hB' : Base maxproc (s.setCall p .none) := hB.setCall hp (Or.inl (by simp [hr])) (by simp) (by simp)
  have hkid : ∀ q u, (s.setCall p .none).call q ≠ .forkCred u p2 := by
    intro q u hq
    have hqp : q ≠ p := by
      rintro rfl
      simp [Kernel.setCall] at hq
    exact hqp (hB.one q p u uid p2 (by simpa [Kernel.setCall, hqp] using hq) hc)
  have hmalloc : s.malloc p new = .ok ((s.setCall p .none).setRuid p2 (some uid)) := by
    unfold Kernel.malloc
    rw [hc, ← hr]
    rfl
  rw [hmalloc]
  have hruid : ∀ q, q ≠ p2 → ((s.setCall p .none).setRuid p2 (some uid)).ruid q = (s.setCall p .none).ruid q :=
    fun q hq => Function.update_of_ne hq _ _
  refine ⟨_, rfl, ⟨⟨hB'.nprocs, hB'.bound, hB'.nodup, ?_, hB'.calls, ?_, ?_, hB'.one⟩, hI.counters.congr fun v => ?_⟩,
    within_setCall (t := s.setRuid p2 (some uid)) rfl (by simp)⟩
  · intro q hq
    obtain ⟨h₁, h₂⟩ := hB'.zombies q hq
    refine ⟨h₁, ?_⟩
    by_cases he : q = p2
    · simp [he, Kernel.setRuid]
    · rwa [hruid q he]
  · intro q u hq
    by_cases he : q = p2
    · subst he
      have hcq : (s.setCall p .none).call q = .none := by simpa [Kernel.setCall, hne] using hc2
      unfold Kernel.child at hq
      rw [show ((s.setCall p .none).setRuid q (some uid)).call q = _ from hcq] at hq
      simp at hq
    · rw [hruid q he]
      exact hB'.forks q u hq
  · intro q u q2 hq
    have h2 : q2 ≠ p2 := fun he => hkid q u (he ▸ hq)
    obtain ⟨h₁, h₂, h₃⟩ := hB'.kids q u q2 hq
    exact ⟨h₁, h₂, (hruid q2 h2).trans h₃⟩
  · -- the child counts for itself from now on, and the fork no longer for it
    have h₁ := users_setCall hB hp s.uihash .none v
    have h₂ := @users_update _ _ (s.setCall p .none) ((s.setCall p .none).setRuid p2 (some uid)) p2 hB'.nodup
      (hB'.mem_procs hp2) rfl (fun _ _ => rfl) hruid v
    have hc2' : (s.setCall p .none).call p2 = .none := by simpa [Kernel.setCall, hne] using hc2
    have hr2' : (s.setCall p .none).ruid p2 = none := hr2
    rw [hc] at h₁
    rw [weight_eq, weight_eq, show ((s.setCall p .none).setRuid p2 (some uid)).call p2 = .none from hc2', hc2', hr2',
      show ((s.setCall p .none).setRuid p2 (some uid)).ruid p2 = some uid from Function.update_self _ _ _] at h₂
    have hsame : (s.setTable s.uihash).setCall p .none = s.setCall p .none := rfl
    simp only [Call.weight, hsame, Option.some.injEq, reduceCtorEq, if_false] at h₁ h₂
    have heq : ((s.setCall p .none).setRuid p2 (some uid)).users v = s.users v := by omega
    exact_mod_cast heq

theorem malloc_setuidUid {uid : Nat} (hc : s.call p = .setuidUid uid) (hok : find uid s.uihash = none) (new : P) :
    ∃ s', s.malloc p new = .ok s' ∧ Inv maxproc s' ∧ s.Within s' := by
  have hB := hI.base
  have hp : p ∈ s.allproc := hB.calls p (by simp [hc])
  have hmalloc : s.malloc p new = .ok ((s.setTable (⟨uid, 1⟩ :: s.uihash)).setCall p (.setuidCred uid)) := by
    unfold Kernel.malloc
    rw [hc]
    rfl
  rw [hmalloc]
  have hB' : Base maxproc ((s.setTable (⟨uid, 1⟩ :: s.uihash)).setCall p (.setuidCred uid)) :=
    (hB.setTable (⟨uid, 1⟩ :: s.uihash)).setCall hp (Or.inr (show s.call p ≠ .none by simp [hc])) (by simp) (by simp)
  refine ⟨_, rfl, ⟨hB', (hI.counters.insert hok).congr fun v => ?_⟩, within_setCall rfl (by simp)⟩
  · have hv := users_setCall hB hp (⟨uid, 1⟩ :: s.uihash) (.setuidCred uid) v
    rw [hc] at hv
    simp only [Call.weight] at hv
    split_ifs at hv ⊢ <;> omega

/-- `setuid` ends. -/
theorem malloc_setuidCred {uid : Nat} (hc : s.call p = .setuidCred uid) (new : P) :
    ∃ s', s.malloc p new = .ok s' ∧ Inv maxproc s' ∧ s.Within s' := by
  have hB := hI.base
  have hp : p ∈ s.allproc := hB.calls p (by simp [hc])
  have hmalloc : s.malloc p new = .ok ((s.setRuid p (some uid)).setCall p .none) := by
    unfold Kernel.malloc
    rw [hc]
    rfl
  rw [hmalloc]
  have hruid : ∀ q, q ≠ p → (s.setRuid p (some uid)).ruid q = s.ruid q := fun q hq => Function.update_of_ne hq _ _
  have hB' : Base maxproc (s.setRuid p (some uid)) := by
    refine ⟨hB.nprocs, hB.bound, hB.nodup, fun q hq => ?_, hB.calls, fun q u hq => ?_, fun q u p2 hq => ?_, hB.one⟩
    · obtain ⟨h₁, h₂⟩ := hB.zombies q hq
      have hqp : q ≠ p := by
        rintro rfl
        rw [hc] at h₁
        cases h₁
      exact ⟨h₁, by rwa [hruid q hqp]⟩
    · have hqp : q ≠ p := by
        rintro rfl
        rw [show (s.setRuid q (some uid)).call q = .setuidCred uid from hc] at hq
        simp [Kernel.child, Kernel.setRuid, hc] at hq
      rw [hruid q hqp]
      exact hB.forks q u hq
    · obtain ⟨h₁, h₂, h₃⟩ := hB.kids q u p2 hq
      have h2p : p2 ≠ p := by
        rintro rfl
        rw [hc] at h₂
        cases h₂
      exact ⟨h₁, h₂, (hruid p2 h2p).trans h₃⟩
  refine ⟨_, rfl, ⟨hB'.setCall hp (Or.inl (by simp [Kernel.setRuid])) (by simp) (by simp), hI.counters.congr fun v => ?_⟩,
    within_setCall rfl (by simp)⟩
  have h₁ := @users_update _ _ s ((s.setRuid p (some uid)).setCall p .none) p hB.nodup (hB.mem_procs hp) rfl
    (fun q hq => by simp [Kernel.setCall, Kernel.setRuid, hq]) (fun q hq => hruid q hq) v
  have hself : (s.setRuid p (some uid)).ruid p = some uid := Function.update_self _ _ _
  have hnone : ((s.setRuid p (some uid)).setCall p .none).call p = .none := Function.update_self _ _ _
  rw [weight_eq, weight_eq, hc, hnone, show ((s.setRuid p (some uid)).setCall p .none).ruid p = _ from hself] at h₁
  simp only [Call.weight, Option.some.injEq] at h₁
  rw [Nat.add_right_cancel h₁]

/-- Every safe step keeps the invariant, and no fork passes a limit. -/
theorem step {op : Op P} (hal : s.Allowed op) (hok : s.Safe maxproc op) :
    ∃ s', s.step maxproc op = .ok s' ∧ Inv maxproc s' ∧ s.Within s' := by
  cases op with
  | fork1 p lim =>
    obtain ⟨uid, hr⟩ := Option.isSome_iff_exists.1 hal.2.2
    simp only [Kernel.step, hr, Option.elim_some]
    exact hI.fork1 hal.1 hal.2.1 hr lim
  | setuid p uid suser =>
    obtain ⟨ruid, hr⟩ := Option.isSome_iff_exists.1 hal.2.2
    simp only [Kernel.step, hr, Option.elim_some]
    exact hI.setuid hal.1 hal.2.1 hr uid suser
  | exit1 p => exact ⟨_, rfl, hI.exit1 hal.1 hal.2.1 hal.2.2, within_of fun _ _ _ h => h⟩
  | wait1 p => exact hI.wait1 hal
  | malloc p new =>
    simp only [Kernel.Safe] at hok
    cases hc : s.call p with
    | none => exact absurd hc hal.1
    | forkUid uid lim => exact hI.malloc_forkUid hc (by simpa [hc, Kernel.SafeAt] using hok) new
    | forkProc uid lim => exact hI.malloc_forkProc hc (by simpa [hc, Kernel.SafeAt] using hok) hal.2
    | forkCred uid p2 => exact hI.malloc_forkCred hc new
    | setuidUid uid => exact hI.malloc_setuidUid hc (by simpa [hc, Kernel.SafeAt] using hok) new
    | setuidCred uid => exact hI.malloc_setuidCred hc new

theorem not_unique {uid : Nat} (hf : find uid s.uihash ≠ none) : ¬((⟨uid, 1⟩ :: s.uihash).map Uidinfo.uid).Nodup := by
  intro h
  exact hf (find_eq_none.2 (List.nodup_cons.1 h).1)

/-- Any other step breaks the limits. -/
theorem not_limits {op : Op P} (hal : s.Allowed op) (hbad : ¬s.Safe maxproc op) :
    ∀ s', s.step maxproc op = .ok s' → ¬s'.Limits maxproc := by
  intro s' hs' hL
  cases op with
  | malloc p new =>
    simp only [Kernel.Safe] at hbad
    simp only [Kernel.step, Kernel.malloc] at hs'
    cases hc : s.call p with
    | none => simp [hc, Kernel.SafeAt] at hbad
    | forkCred uid p2 => simp [hc, Kernel.SafeAt] at hbad
    | setuidCred uid => simp [hc, Kernel.SafeAt] at hbad
    | forkProc uid lim =>
      simp only [hc, Kernel.SafeAt] at hbad hs'
      obtain rfl := Except.ok.inj hs'
      have hb := hL.bound
      simp only at hb
      omega
    | setuidUid uid =>
      simp only [hc, Kernel.SafeAt] at hbad hs'
      obtain rfl := Except.ok.inj hs'
      exact hI.not_unique hbad hL.unique
    | forkUid uid lim =>
      simp only [hc, Kernel.SafeAt, not_or] at hbad hs'
      unfold Kernel.forkLimit at hs'
      rw [if_neg fun h => hbad.2 ⟨h.1, h.2⟩] at hs'
      obtain rfl := Except.ok.inj hs'
      exact hI.not_unique hbad.1 hL.unique
  | fork1 p lim => exact hbad trivial
  | setuid p uid suser => exact hbad trivial
  | exit1 p => exact hbad trivial
  | wait1 p => exact hbad trivial

end Inv

/-! ## Runs -/

theorem Inv.boot (p0 : P) (h : 1 ≤ maxproc) : Inv maxproc (Kernel.boot p0) where
  base := by
    refine ⟨rfl, h, by simp [Kernel.procs, Kernel.boot], by simp [Kernel.boot], by simp [Kernel.boot], ?_, by simp [Kernel.boot],
      by simp [Kernel.boot]⟩
    intro p uid hp
    simp [Kernel.boot, Kernel.child] at hp
  counters := by
    refine ⟨by simp [Kernel.boot], by simp [Kernel.boot], fun uid => ?_⟩
    have hw : (Kernel.boot p0).users uid = if uid = 0 then 1 else 0 := by
      by_cases he : uid = 0
      · simp [Kernel.users, Kernel.procs, Kernel.weight, Kernel.own, Kernel.child, Kernel.boot, he]
      · simp [Kernel.users, Kernel.procs, Kernel.weight, Kernel.own, Kernel.child, Kernel.boot, he, Ne.symm he]
    simp only [hw]
    by_cases he : uid = 0
    · simp [cnt, Kernel.boot, find_cons, he]
    · simp [cnt, Kernel.boot, find, he, Ne.symm he]

/-- A run that goes on, in the invariant. -/
def Running (maxproc : Int) (t : Except String (Kernel P)) : Prop := ∃ s, t = .ok s ∧ Inv maxproc s

theorem running_step {t : Except String (Kernel P)} {op : Op P} (ht : Running maxproc t) (hal : Allowed t op)
    (hok : Safe maxproc t op) : Running maxproc (step maxproc t op) := by
  obtain ⟨s, rfl, hI⟩ := ht
  obtain ⟨s', hs', hI', -⟩ := hI.step (hal s rfl) (hok s rfl)
  exact ⟨s', hs', hI'⟩

theorem within_of_running {t : Except String (Kernel P)} {op : Op P} (ht : Running maxproc t) (hal : Allowed t op)
    (hok : Safe maxproc t op) : Within maxproc t op := by
  rintro s s' rfl hs'
  obtain ⟨r, hr, hI⟩ := ht
  obtain rfl := Except.ok.inj hr
  obtain ⟨s'', hs'', -, hw⟩ := hI.step (hal s rfl) (hok s rfl)
  obtain rfl := Except.ok.inj (hs''.symm.trans hs')
  exact hw

theorem not_limits_of_running {t : Except String (Kernel P)} {op : Op P} (ht : Running maxproc t) (hal : Allowed t op)
    (hbad : ¬Safe maxproc t op) : ¬∃ s, step maxproc t op = .ok s ∧ s.Limits maxproc := by
  rintro ⟨s', hs', hL⟩
  obtain ⟨s, rfl, hI⟩ := ht
  refine hI.not_limits (hal s rfl) (fun h => hbad fun r hr => ?_) s' hs' hL
  obtain rfl := Except.ok.inj hr
  exact h

/-- The limits and the counts over a run: every state has them, and no fork passes a limit, exactly if every
step is safe. -/
theorem limits_runs (p0 : P) (hmax : 1 ≤ maxproc) (ops : List (Op P))
    (hal : Along (step maxproc) Allowed (.ok (Kernel.boot p0)) ops) :
    ((∀ t ∈ states (step maxproc) (.ok (Kernel.boot p0)) ops, ∃ s, t = .ok s ∧ s.Limits maxproc) ∧
        Along (step maxproc) (Within maxproc) (.ok (Kernel.boot p0)) ops) ↔
      Along (step maxproc) (Safe maxproc) (.ok (Kernel.boot p0)) ops := by
  have hstart : Running maxproc (.ok (Kernel.boot p0)) := ⟨_, rfl, Inv.boot p0 hmax⟩
  have hiff : (∀ t ∈ states (step maxproc) (.ok (Kernel.boot p0)) ops, ∃ s, t = .ok s ∧ s.Limits maxproc) ↔
      Along (step maxproc) (Safe maxproc) (.ok (Kernel.boot p0)) ops := by
    refine states_iff_along (I := Running maxproc) (P := fun t => ∃ s, t = .ok s ∧ s.Limits maxproc)
      (fun _ _ => running_step) ?_ (fun _ _ => not_limits_of_running) hstart hal
    rintro _ ⟨s, rfl, hI⟩
    exact ⟨s, rfl, hI.limits⟩
  refine ⟨fun h => hiff.1 h.1, fun h => ⟨hiff.2 h, ?_⟩⟩
  have hboth := (along_and (step maxproc) Allowed (Safe maxproc) _ ops).2 ⟨hal, h⟩
  exact along_of_inv (fun _ _ ht hok => running_step ht hok.1 hok.2)
    (fun _ _ ht hok => within_of_running ht hok.1 hok.2) hstart hboth

/-- Two users: process 0 forks 1, which becomes user 5 and forks 2; 2 exits and is reaped. -/
theorem limits_runs_two :
    ((∀ t ∈ states (step 4) (.ok (Kernel.boot 0)) [.fork1 0 8, .malloc 0 1, .malloc 0 9, .setuid 1 5 true, .malloc 1 9,
        .malloc 1 9, .fork1 1 8, .malloc 1 2, .malloc 1 9, .exit1 2, .wait1 2], ∃ s, t = .ok s ∧ s.Limits 4) ∧
      Along (step 4) (Within 4) (.ok (Kernel.boot 0)) [.fork1 0 8, .malloc 0 1, .malloc 0 9, .setuid 1 5 true, .malloc 1 9,
        .malloc 1 9, .fork1 1 8, .malloc 1 2, .malloc 1 9, .exit1 2, .wait1 2]) :=
  (limits_runs 0 (by decide) _ (by decide)).2 (by decide)

/-- Two processes of root change to user 5 at once, and the user gets two counters. -/
theorem two_counters :
    ¬∀ (maxproc : Int) (ops : List (Op Nat)), 1 ≤ maxproc →
      Along (step maxproc) Allowed (.ok (Kernel.boot 0)) ops →
        ∀ t ∈ states (step maxproc) (.ok (Kernel.boot 0)) ops, ∃ s, t = .ok s ∧ s.Limits maxproc := by
  intro h
  have hlast := h 10 [.fork1 0 8, .malloc 0 1, .malloc 0 9, .setuid 0 5 true, .setuid 1 5 true, .malloc 0 9, .malloc 1 9]
    (by decide) (by decide) _ (final_mem_states _ _ _)
  obtain ⟨s, hs, hL⟩ := hlast
  obtain rfl := Except.ok.inj hs
  exact absurd hL.unique (by decide)

end BsdKernel.Proccnt
