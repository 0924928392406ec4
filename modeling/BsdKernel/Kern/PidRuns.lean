import BsdKernel.Kern.Pid
import Mathlib.Tactic
/-!
# Runs of the process-id search

While a list is walked, the ids of the processes passed lie below the candidate or at
`pidchecked` and above; the candidate is only raised past ids in use, so it does not pass
a free one.
-/

namespace BsdKernel.Pid

open BsdKernel.Lib

set_option linter.unusedSectionVars false

variable {P : Type} [DecidableEq P] {s : Table P}

/-! ## The search -/

/-- The ids of `p` are not in the interval from `n` up to `c`. -/
def Clear (s : Table P) (n c : Int) (p : P) : Prop :=
  ((s.proc p).pid < n ∨ c ≤ (s.proc p).pid) ∧ ((s.proc p).pgid < n ∨ c ≤ (s.proc p).pgid)

/-- The processes a search has yet to look at. -/
def rest (s : Table P) : At P → List P
  | .retry => s.procs
  | .again l false => l ++ s.zombproc
  | .again l true => l

/-- The invariant of the search. -/
structure Scanning (s : Table P) (t : Search P) : Prop where
  nonneg : 0 ≤ t.nextpid
  le : t.nextpid ≤ PID_MAX
  checked : t.pidchecked ≤ PID_MAX
  lt : t.pos ≠ .retry → t.nextpid < t.pidchecked
  seen : ∀ p ∈ s.procs, p ∈ rest s t.pos ∧ t.pos ≠ .retry ∨ Clear s t.nextpid t.pidchecked p
  short : (rest s t.pos).length ≤ s.procs.length
  sub : ∀ p ∈ rest s t.pos, p ∈ s.procs

/-- What the search answers: the start of an interval without an id in use. -/
structure Found (s : Table P) (r : Int × Int) : Prop where
  nonneg : 0 ≤ r.1
  lt : r.1 < r.2
  checked : r.2 ≤ PID_MAX
  clear : ∀ p ∈ s.procs, Clear s r.1 r.2 p

variable {n c f pgid : Int} {p : P}

theorem Clear.mono {n' c' : Int} (h : Clear s n c p) (hn : n ≤ n') (hc : c' ≤ c) : Clear s n' c' p :=
  ⟨h.1.imp (lt_of_lt_of_le · hn) (le_trans hc ·), h.2.imp (lt_of_lt_of_le · hn) (le_trans hc ·)⟩

theorem Clear.of_le (p : P) (h : c ≤ n) : Clear s n c p :=
  ⟨by rcases lt_or_ge (s.proc p).pid n with h' | h' <;> omega,
    by rcases lt_or_ge (s.proc p).pgid n with h' | h' <;> omega⟩

/-- `pidchecked` lowered by the ids of a process whose ids are not the candidate. -/
def lowered (p : Proc P) (n c : Int) : Int :=
  let c := if p.pid > n ∧ c > p.pid then p.pid else c
  if p.pgid > n ∧ c > p.pgid then p.pgid else c

theorem lowered_le (p : Proc P) (n c : Int) : lowered p n c ≤ c := by
  unfold lowered
  simp only
  split_ifs <;> omega

theorem lt_lowered (p : Proc P) (h : n < c) : n < lowered p n c := by
  unfold lowered
  simp only
  split_ifs <;> omega

theorem clear_lowered (hne : ¬((s.proc p).pid = n ∨ (s.proc p).pgid = n)) : Clear s n (lowered (s.proc p) n c) p := by
  unfold Clear lowered
  simp only
  split_ifs <;> omega

theorem searchStep_cons (n c : Int) (p2 : P) (l : List P) (z : Bool) :
    s.searchStep ⟨n, c, .again (p2 :: l) z⟩ =
      if (s.proc p2).pid = n ∨ (s.proc p2).pgid = n then
        if n + 1 ≥ c then .inl ⟨n + 1, c, .retry⟩ else .inl ⟨n + 1, c, .again (p2 :: l) z⟩
      else .inl ⟨n, lowered (s.proc p2) n c, .again l z⟩ := rfl

theorem searchStep_go {t t' : Search P} (h : Scanning s t) (hgo : s.searchStep t = .inl t') : Scanning s t' := by
  obtain ⟨n, c, pos⟩ := t
  have hlt := h.lt
  have hle := h.le
  have hnonneg := h.nonneg
  have hchecked := h.checked
  have hshort := h.short
  simp only at hlt hle hnonneg hchecked hshort
  match pos, hgo with
  | .retry, hgo =>
    simp only [Table.searchStep] at hgo
    split_ifs at hgo with h₁ h₂ h₂
    · obtain rfl := Sum.inl.inj hgo
      exact ⟨by norm_num, by norm_num [PID_MAX], le_rfl, fun _ => by norm_num [PID_MAX],
        fun p hp => Or.inl ⟨hp, by simp⟩, le_rfl, fun p hp => hp⟩
    · obtain rfl := Sum.inl.inj hgo
      exact ⟨hnonneg, hle, le_rfl, fun _ => not_le.1 h₁, fun p hp => Or.inl ⟨hp, by simp⟩, le_rfl,
        fun p hp => hp⟩
  | .again [] false, hgo =>
    obtain rfl := Sum.inl.inj hgo
    exact ⟨hnonneg, hle, hchecked, fun _ => hlt (by simp), fun p hp => (h.seen p hp).imp_left fun hr => ⟨hr.1, by simp⟩,
      hshort, h.sub⟩
  | .again [] true, hgo => exact absurd hgo nofun
  | .again (p2 :: l) z, hgo =>
    have hnc : n < c := hlt (by simp)
    rw [searchStep_cons] at hgo
    split_ifs at hgo with h₁ h₂
    · obtain rfl := Sum.inl.inj hgo
      exact ⟨by simp only; omega, by simp only; omega, hchecked, by simp, fun p _ => Or.inr (Clear.of_le p h₂), le_rfl,
        fun p hp => hp⟩
    · obtain rfl := Sum.inl.inj hgo
      refine ⟨by simp only; omega, by simp only; omega, hchecked, fun _ => not_le.1 h₂, fun p hp => ?_, hshort, h.sub⟩
      exact (h.seen p hp).imp_right fun hc => hc.mono (by simp) le_rfl
    · obtain rfl := Sum.inl.inj hgo
      have hlow := lowered_le (s.proc p2) n c
      refine ⟨hnonneg, hle, le_trans hlow hchecked, fun _ => lt_lowered (s.proc p2) hnc, fun p hp => ?_, ?_,
        fun p hp => h.sub p (by cases z <;> (simp only [rest] at hp ⊢; simp_all))⟩
      · by_cases he : p = p2
        · right
          rw [he]
          exact clear_lowered h₁
        · rcases h.seen p hp with hr | hc
          · left
            refine ⟨?_, by simp⟩
            cases z <;> simpa [rest, he] using hr.1
          · exact Or.inr (hc.mono le_rfl hlow)
      · cases z <;> (simp only [rest, List.length_append, List.length_cons] at hshort ⊢; omega)

theorem searchStep_end {t : Search P} {r : Int × Int} (h : Scanning s t) (hend : s.searchStep t = .inr r) : Found s r := by
  obtain ⟨n, c, pos⟩ := t
  match pos, hend with
  | .retry, hend =>
    simp only [Table.searchStep] at hend
    split_ifs at hend with h₁ h₂ h₂
    · norm_num at h₂
    · obtain rfl := Sum.inr.inj hend
      refine ⟨h.nonneg, not_le.1 h₂, h.checked, fun p hp => ?_⟩
      rcases h.seen p hp with hr | hc
      · exact absurd rfl hr.2
      · exact hc
  | .again [] false, hend => exact absurd hend nofun
  | .again [] true, hend =>
    obtain rfl := Sum.inr.inj hend
    refine ⟨h.nonneg, h.lt (by simp), h.checked, fun p hp => ?_⟩
    rcases h.seen p hp with hr | hc
    · exact absurd hr.1 (by simp [rest])
    · exact hc
  | .again (p2 :: l) z, hend =>
    rw [searchStep_cons] at hend
    split_ifs at hend

/-! ## The search ends -/

/-- How often the candidate can still be raised before it is the free id `f`. -/
def raises (f n : Int) : Nat := if n ≤ f then (f - n).toNat else (PID_MAX + 1 - n).toNat + (f - 99).toNat

/-- The rounds until the candidate is raised or the search ends. -/
def roundsAt (s : Table P) : At P → Nat
  | .retry => s.procs.length + 3
  | .again l false => l.length + s.zombproc.length + 2
  | .again l true => l.length + 1

def measure (s : Table P) (f : Int) (t : Search P) : Nat :=
  raises f t.nextpid * (2 * (s.procs.length + 3)) + roundsAt s t.pos

theorem roundsAt_le {pos : At P} (h : (rest s pos).length ≤ s.procs.length) : roundsAt s pos ≤ s.procs.length + 3 := by
  match pos with
  | .retry => exact le_rfl
  | .again l false => simp only [rest, roundsAt, List.length_append] at h ⊢; omega
  | .again l true => simp only [rest, roundsAt] at h ⊢; omega

theorem raises_succ (hne : n ≠ f) (hn : n < PID_MAX) : raises f (n + 1) + 1 = raises f n := by
  unfold raises
  split_ifs <;> omega

theorem raises_wrap (hf : 100 ≤ f) (hf' : f < PID_MAX) (hn : PID_MAX ≤ n) : raises f 100 ≤ raises f n := by
  unfold raises
  split_ifs <;> omega

theorem raises_le (hf : 100 ≤ f) (hf' : f < PID_MAX) (hn : 0 ≤ n) : raises f n ≤ 2 * PID_MAX.toNat := by
  unfold raises
  split_ifs <;> omega

theorem searchStep_measure (hf : 100 ≤ f) (hf' : f < PID_MAX)
    (hfree : ∀ p ∈ s.procs, (s.proc p).pid ≠ f ∧ (s.proc p).pgid ≠ f) {t t' : Search P} (h : Scanning s t)
    (hgo : s.searchStep t = .inl t') : measure s f t' < measure s f t := by
  have hafter := (roundsAt_le (searchStep_go h hgo).short)
  obtain ⟨n, c, pos⟩ := t
  unfold measure
  match pos, hgo with
  | .retry, hgo =>
    simp only [Table.searchStep] at hgo
    have hlist : (s.allproc.length + s.zombproc.length : Nat) = s.procs.length := (List.length_append).symm
    split_ifs at hgo with h₁ h₂ h₂
    · obtain rfl := Sum.inl.inj hgo
      have hmul := Nat.mul_le_mul_right (2 * (s.procs.length + 3)) (raises_wrap hf hf' h₁)
      simp only [roundsAt]
      omega
    · obtain rfl := Sum.inl.inj hgo
      simp only [roundsAt]
      omega
  | .again [] false, hgo =>
    obtain rfl := Sum.inl.inj hgo
    simp only [roundsAt, List.length_nil]
    omega
  | .again [] true, hgo => exact absurd hgo nofun
  | .again (p2 :: l) z, hgo =>
    have hused := hfree p2 (h.sub p2 (by cases z <;> simp [rest]))
    have hlt : n < c := h.lt (by simp)
    have hchecked : c ≤ PID_MAX := h.checked
    have hraise : (s.proc p2).pid = n ∨ (s.proc p2).pgid = n →
        raises f n * (2 * (s.procs.length + 3)) = raises f (n + 1) * (2 * (s.procs.length + 3)) + 2 * (s.procs.length + 3) := by
      intro h₁
      rw [← raises_succ (f := f) (n := n) (by omega) (by omega), Nat.add_mul, Nat.one_mul]
    rw [searchStep_cons] at hgo
    split_ifs at hgo with h₁ h₂
    · obtain rfl := Sum.inl.inj hgo
      have hraise := hraise h₁
      simp only [roundsAt] at hafter ⊢
      omega
    · obtain rfl := Sum.inl.inj hgo
      have hraise := hraise h₁
      simp only
      omega
    · obtain rfl := Sum.inl.inj hgo
      cases z <;> (simp only [roundsAt, List.length_cons]; omega)

/-- While the ids suffice, one from 100 on is free. -/
theorem exists_free (h : s.Room) : ∃ f, 100 ≤ f ∧ f < PID_MAX ∧ ∀ p ∈ s.procs, (s.proc p).pid ≠ f ∧ (s.proc p).pgid ≠ f := by
  have hcard : s.ids.toFinset.card < (Finset.Ico 100 PID_MAX).card := by
    have hroom : (s.ids.toFinset.card : Int) < PID_MAX - 100 := h
    rw [Int.card_Ico]
    omega
  obtain ⟨f, hf, hnot⟩ := Finset.exists_mem_notMem_of_card_lt_card hcard
  rw [Finset.mem_Ico] at hf
  rw [List.mem_toFinset] at hnot
  refine ⟨f, hf.1, hf.2, fun p hp => ⟨fun he => hnot ?_, fun he => hnot ?_⟩⟩
  · exact List.mem_append_left _ (List.mem_map.2 ⟨p, hp, he⟩)
  · exact List.mem_append_right _ (List.mem_map.2 ⟨p, hp, he⟩)

/-! ## The table -/

/-- The invariant of the runs. -/
structure Inv (s : Table P) : Prop where
  sound : CacheSound s
  nonneg : 0 ≤ s.nextpid
  lt : s.nextpid < PID_MAX
  checked : s.pidchecked ≤ PID_MAX
  groups : ∀ g ∈ s.pgrphash, ∃ p ∈ s.procs, (s.proc p).pgid = g.id
  leaders : ∀ p ∈ s.allproc, (s.proc p).leader = true → (s.proc p).pgid = (s.proc p).pid

namespace Inv
variable (hI : Inv s)
include hI

theorem scanning : Scanning s ⟨s.nextpid + 1, s.pidchecked, .retry⟩ where
  nonneg := by have := hI.nonneg; simp only; omega
  le := by have := hI.lt; simp only; omega
  checked := hI.checked
  lt := by simp
  seen := fun p hp => by
    right
    have := hI.sound p hp
    exact ⟨by simp only; omega, by simp only; omega⟩
  short := le_rfl
  sub := fun p hp => hp

theorem search_found {r : Int × Int} (h : s.search = some r) : Found s r :=
  loop_post (I := Scanning s) (fun _ _ => searchStep_go) (fun _ _ => searchStep_end) hI.scanning h

theorem search_ends (h : s.Room) : ∃ r, s.search = some r := by
  obtain ⟨f, hf, hf', hfree⟩ := exists_free h
  refine loop_ends (I := Scanning s) (μ := measure s f)
    (fun t t' ht hgo => ⟨searchStep_go ht hgo, searchStep_measure hf hf' hfree ht hgo⟩) hI.scanning ?_
  have hraises := raises_le hf hf' hI.scanning.nonneg
  have hmul := Nat.mul_le_mul_right (2 * (s.procs.length + 3)) hraises
  have hround := roundsAt_le hI.scanning.short
  unfold measure Table.rounds
  rw [Nat.add_mul]
  omega

theorem forkFinds (h : s.Room) : ForkFinds s := by
  obtain ⟨⟨n, c⟩, hr⟩ := hI.search_ends h
  have hfound := hI.search_found hr
  have hlt := hfound.lt
  have hchecked := hfound.checked
  refine ⟨n, c, hr, by simp only at hlt hchecked; omega, fun p hp => ?_⟩
  have hclear := hfound.clear p hp
  unfold Clear at hclear
  simp only at hlt hclear
  exact ⟨by omega, by omega⟩

end Inv

/-! ## The calls -/

@[simp] theorem proc_pgdeleteEmpty (g : Int) : (s.pgdeleteEmpty g).proc = s.proc := by
  unfold Table.pgdeleteEmpty
  split <;> rfl

@[simp] theorem allproc_pgdeleteEmpty (g : Int) : (s.pgdeleteEmpty g).allproc = s.allproc := by
  unfold Table.pgdeleteEmpty
  split <;> rfl

@[simp] theorem zombproc_pgdeleteEmpty (g : Int) : (s.pgdeleteEmpty g).zombproc = s.zombproc := by
  unfold Table.pgdeleteEmpty
  split <;> rfl

@[simp] theorem nextpid_pgdeleteEmpty (g : Int) : (s.pgdeleteEmpty g).nextpid = s.nextpid := by
  unfold Table.pgdeleteEmpty
  split <;> rfl

@[simp] theorem pidchecked_pgdeleteEmpty (g : Int) : (s.pgdeleteEmpty g).pidchecked = s.pidchecked := by
  unfold Table.pgdeleteEmpty
  split <;> rfl

/-- Once the group that may have lost its last member is deleted, every group has members. -/
theorem groups_pgdeleteEmpty (old : Int) (h : ∀ g ∈ s.pgrphash, g.id = old ∨ ∃ p ∈ s.procs, (s.proc p).pgid = g.id) :
    ∀ g ∈ (s.pgdeleteEmpty old).pgrphash, ∃ p ∈ s.procs, (s.proc p).pgid = g.id := by
  intro g hg
  unfold Table.pgdeleteEmpty at hg
  split at hg
  · rename_i hany
    rcases h g hg with he | hp
    · obtain ⟨p, hp, hpg⟩ := List.any_eq_true.1 hany
      exact ⟨p, hp, by rw [he]; exact of_decide_eq_true hpg⟩
    · exact hp
  · obtain ⟨hg, hne⟩ := List.mem_filter.1 hg
    exact (h g hg).resolve_left (of_decide_eq_true hne)

/-- A process goes to the group of an id in use. -/
theorem moveTo_inv (hsound : CacheSound s) (hnonneg : 0 ≤ s.nextpid) (hlt : s.nextpid < PID_MAX)
    (hchecked : s.pidchecked ≤ PID_MAX) (hp : p ∈ s.procs)
    (hused : ∃ q ∈ s.procs, (s.proc q).pid = pgid ∨ (s.proc q).pgid = pgid)
    (hgroups : ∀ g ∈ s.pgrphash, g.id = pgid ∨ ∃ q ∈ s.procs, (s.proc q).pgid = g.id)
    (hleaders : ∀ q ∈ s.allproc, (s.proc q).leader = true →
      (if q = p then pgid else (s.proc q).pgid) = (s.proc q).pid) : Inv (s.moveTo p pgid) := by
  have hproc : ∀ q, (Function.update s.proc p { s.proc p with pgid := pgid } q).pid = (s.proc q).pid := by
    intro q
    by_cases he : q = p
    · subst he
      simp
    · simp [he]
  have hpgid : ∀ q, (Function.update s.proc p { s.proc p with pgid := pgid } q).pgid =
      if q = p then pgid else (s.proc q).pgid := by
    intro q
    by_cases he : q = p <;> simp [he]
  refine ⟨?_, hnonneg.trans_eq (by simp [Table.moveTo]), by simpa [Table.moveTo] using hlt,
    by simpa [Table.moveTo] using hchecked, ?_, ?_⟩
  · intro q hq
    have hq' : q ∈ s.procs := by simpa [Table.moveTo, Table.procs] using hq
    simp only [Table.moveTo, proc_pgdeleteEmpty, nextpid_pgdeleteEmpty, pidchecked_pgdeleteEmpty, hproc, hpgid]
    refine ⟨(hsound q hq').1, ?_⟩
    split
    · obtain ⟨r, hr, hr' | hr'⟩ := hused
      · rw [← hr']
        exact (hsound r hr).1
      · rw [← hr']
        exact (hsound r hr).2
    · exact (hsound q hq').2
  · intro g hg
    have h := groups_pgdeleteEmpty (s := { s with proc := Function.update s.proc p { s.proc p with pgid := pgid } })
      (s.proc p).pgid (fun g hg => ?_) g hg
    · obtain ⟨q, hq, hqg⟩ := h
      exact ⟨q, by simpa [Table.moveTo, Table.procs] using hq, by simpa [Table.moveTo] using hqg⟩
    · rcases hgroups g hg with he | ⟨q, hq, hqg⟩
      · exact Or.inr ⟨p, hp, by simp [he]⟩
      · by_cases he : q = p
        · exact Or.inl (by rw [← hqg, he])
        · exact Or.inr ⟨q, hq, by simpa [he] using hqg⟩
  · intro q hq hl
    have hq' : q ∈ s.allproc := by simpa [Table.moveTo] using hq
    simp only [Table.moveTo, proc_pgdeleteEmpty] at hl ⊢
    rw [hproc, hpgid]
    refine hleaders q hq' ?_
    by_cases he : q = p
    · subst he
      simpa using hl
    · simpa [he] using hl

namespace Inv
variable (hI : Inv s)
include hI

theorem group_used {g : Pgrp} (h : s.pgfind pgid = some g) : g.id = pgid ∧ ∃ q ∈ s.procs, (s.proc q).pgid = pgid := by
  unfold Table.pgfind at h
  have hid : g.id = pgid := by simpa using List.find?_some h
  obtain ⟨q, hq, hqg⟩ := hI.groups g (List.mem_of_find?_eq_some h)
  exact ⟨hid, q, hq, hqg.trans hid⟩

/-- `enterpgrp`, as `setpgid` and `setsid` call it. -/
theorem enterpgrp {mksess : Bool} {sess : Nat} (hp : p ∈ s.allproc) (hleader : (s.proc p).leader = false)
    (hcall : ((s.proc p).pid = pgid ∧ (mksess = true → s.pgfind pgid = none)) ∨ (mksess = false ∧ (s.pgfind pgid).isSome)) :
    ∃ s', s.enterpgrp p pgid mksess sess = .ok s' ∧ Inv s' := by
  have hps : p ∈ s.procs := List.mem_append_left _ hp
  have hleaders : ∀ q ∈ s.allproc, (s.proc q).leader = true →
      (if q = p then pgid else (s.proc q).pgid) = (s.proc q).pid := by
    intro q hq hl
    by_cases he : q = p
    · rw [he, hleader] at hl
      exact absurd hl (by simp)
    · rw [if_neg he]
      exact hI.leaders q hq hl
  unfold Table.enterpgrp
  have hfirewall : ¬((s.pgfind pgid).isSome ∧ mksess = true) := by
    rintro ⟨hs, hm⟩
    rcases hcall with h | h
    · simp [h.2 hm] at hs
    · simp [h.1] at hm
  rw [if_neg hfirewall, if_neg (by simp [hleader])]
  cases hfind : s.pgfind pgid with
  | none =>
    have hpid : (s.proc p).pid = pgid := by
      rcases hcall with h | h
      · exact h.1
      · simp [hfind] at h
    simp only
    rw [if_neg (by simp [hpid])]
    split_ifs with hself hmk
    · exact ⟨s, rfl, hI⟩
    · -- the new session's leader has the group of its own id
      refine ⟨_, rfl, moveTo_inv ?_ hI.nonneg hI.lt hI.checked hps ⟨p, hps, by simp [hpid]⟩ ?_ ?_⟩
      · intro q hq
        have h := hI.sound q hq
        by_cases he : q = p
        · subst he
          simpa using h
        · simpa [he] using h
      · intro g hg
        rcases List.mem_cons.1 hg with rfl | hg
        · exact Or.inl rfl
        · obtain ⟨q, hq, hqg⟩ := hI.groups g hg
          refine Or.inr ⟨q, hq, ?_⟩
          by_cases he : q = p
          · subst he
            simpa using hqg
          · simpa [he] using hqg
      · intro q hq hl
        by_cases he : q = p
        · subst he
          simpa using hpid.symm
        · simp only [Function.update_of_ne he] at hl ⊢
          exact hleaders q hq hl
    · refine ⟨_, rfl, moveTo_inv hI.sound hI.nonneg hI.lt hI.checked hps ⟨p, hps, Or.inl hpid⟩ ?_ hleaders⟩
      intro g hg
      rcases List.mem_cons.1 hg with rfl | hg
      · exact Or.inl rfl
      · exact Or.inr (hI.groups g hg)
  | some g =>
    obtain ⟨-, q, hq, hqg⟩ := hI.group_used hfind
    simp only
    split_ifs
    · exact ⟨s, rfl, hI⟩
    · exact ⟨_, rfl, moveTo_inv hI.sound hI.nonneg hI.lt hI.checked hps ⟨q, hq, Or.inr hqg⟩
        (fun g hg => Or.inr (hI.groups g hg)) hleaders⟩

theorem setsid (hp : p ∈ s.allproc) (sess : Nat) : ∃ s', s.setsid p sess = .ok s' ∧ Inv s' := by
  unfold Table.setsid
  split_ifs with h
  · exact ⟨s, rfl, hI⟩
  · have hleader : (s.proc p).leader = false := by
      by_contra hl
      exact h (Or.inl (hI.leaders p hp (by simpa using hl)))
    have hnone : s.pgfind (s.proc p).pid = none := by
      by_contra hs
      exact h (Or.inr (Option.isSome_iff_ne_none.2 hs))
    exact hI.enterpgrp hp hleader (Or.inl ⟨rfl, fun _ => hnone⟩)

theorem setpgidOf {curp targp : P} (ht : targp ∈ s.allproc) (pgid : Int) :
    ∃ s', s.setpgidOf curp targp pgid = .ok s' ∧ Inv s' := by
  unfold Table.setpgidOf
  cases hl : (s.proc targp).leader with
  | true => exact ⟨s, rfl, hI⟩
  | false =>
    simp only [Bool.false_eq_true, if_false]
    by_cases h0 : pgid = 0
    · rw [if_pos h0]
      exact hI.enterpgrp ht hl (Or.inl ⟨rfl, by simp⟩)
    · rw [if_neg h0]
      by_cases hpid : pgid = (s.proc targp).pid
      · rw [if_neg (by simp [hpid])]
        exact hI.enterpgrp ht hl (Or.inl ⟨hpid.symm, by simp⟩)
      · rw [if_pos hpid]
        cases hfind : s.pgfind pgid with
        | none => exact ⟨s, rfl, hI⟩
        | some g =>
          simp only
          split_ifs
          · exact ⟨s, rfl, hI⟩
          · exact hI.enterpgrp ht hl (Or.inr ⟨rfl, by simp [hfind]⟩)

theorem setpgid {curp : P} (hc : curp ∈ s.allproc) (pid pgid : Int) (inferior : Bool) :
    ∃ s', s.setpgid curp pid pgid inferior = .ok s' ∧ Inv s' := by
  unfold Table.setpgid
  by_cases hself : pid ≠ 0 ∧ pid ≠ (s.proc curp).pid
  · rw [if_pos hself]
    cases hfind : s.pfind pid with
    | none => exact ⟨s, rfl, hI⟩
    | some targp =>
      simp only
      split_ifs
      · exact ⟨s, rfl, hI⟩
      · exact ⟨s, rfl, hI⟩
      · exact ⟨s, rfl, hI⟩
      · exact hI.setpgidOf (List.mem_of_find?_eq_some hfind) pgid
  · rw [if_neg hself]
    exact hI.setpgidOf hc pgid

theorem fork1 {p1 new : P} (hp : p1 ∈ s.allproc) (hnew : new ∉ s.procs) (hroom : s.Room) :
    ∃ s', s.fork1 p1 new = some s' ∧ Inv s' := by
  obtain ⟨⟨n, c⟩, hr⟩ := hI.search_ends hroom
  have hfound := hI.search_found hr
  have hlt := hfound.lt
  have hchecked := hfound.checked
  simp only at hlt hchecked
  have hne : ∀ q ∈ s.procs, q ≠ new := fun q hq he => hnew (he ▸ hq)
  have hclear : ∀ q ∈ s.procs, ¬(n < (s.proc q).pid ∧ (s.proc q).pid < c) ∧ ¬(n < (s.proc q).pgid ∧ (s.proc q).pgid < c) := by
    intro q hq
    have h := hfound.clear q hq
    unfold Clear at h
    simp only at h
    exact ⟨by omega, by omega⟩
  refine ⟨_, by unfold Table.fork1; rw [hr]; rfl, ?_, hfound.nonneg, by simp only; omega, hchecked, ?_, ?_⟩
  · intro q hq
    rcases List.mem_cons.1 hq with rfl | hq
    · have hparent := (hclear p1 (List.mem_append_left _ hp)).2
      simp only [Function.update_self]
      exact ⟨by omega, hparent⟩
    · simp only [Function.update_of_ne (hne q hq)]
      exact hclear q hq
  · intro g hg
    obtain ⟨q, hq, hqg⟩ := hI.groups g hg
    exact ⟨q, List.mem_cons_of_mem _ hq, by simpa [hne q hq] using hqg⟩
  · intro q hq hl
    rcases List.mem_cons.1 hq with rfl | hq
    · simp at hl
    · have he := hne q (List.mem_append_left _ hq)
      simp only [Function.update_of_ne he] at hl ⊢
      exact hI.leaders q hq hl

theorem exit1 (hp : p ∈ s.allproc) : Inv (s.exit1 p) := by
  have hids : ∀ q, ((s.exit1 p).proc q).pid = (s.proc q).pid ∧ ((s.exit1 p).proc q).pgid = (s.proc q).pgid := by
    intro q
    simp only [Table.exit1]
    split_ifs <;> exact ⟨rfl, rfl⟩
  have hmem : ∀ q, q ∈ (s.exit1 p).procs ↔ q ∈ s.procs := by
    intro q
    simp only [Table.exit1, Table.procs, List.mem_append, List.mem_cons]
    by_cases he : q = p
    · simp [he, hp]
    · simp [he, List.mem_erase_of_ne he]
  refine ⟨?_, hI.nonneg, hI.lt, hI.checked, ?_, ?_⟩
  · intro q hq
    rw [(hids q).1, (hids q).2]
    exact hI.sound q ((hmem q).1 hq)
  · intro g hg
    obtain ⟨q, hq, hqg⟩ := hI.groups g hg
    exact ⟨q, (hmem q).2 hq, (hids q).2.trans hqg⟩
  · intro q hq hl
    rw [(hids q).1, (hids q).2]
    have hq' : q ∈ s.allproc := List.mem_of_mem_erase hq
    refine hI.leaders q hq' ?_
    simp only [Table.exit1] at hl
    split_ifs at hl <;> simp_all

theorem wait1 (p : P) : Inv (s.wait1 p) := by
  have hsub : ∀ q ∈ (s.wait1 p).procs, q ∈ s.procs := by
    intro q hq
    simp only [Table.wait1, Table.procs, allproc_pgdeleteEmpty, zombproc_pgdeleteEmpty, List.mem_append] at hq ⊢
    exact hq.imp_right List.mem_of_mem_erase
  refine ⟨?_, by simpa [Table.wait1] using hI.nonneg, by simpa [Table.wait1] using hI.lt,
    by simpa [Table.wait1] using hI.checked, ?_, ?_⟩
  · intro q hq
    simpa [Table.wait1] using hI.sound q (hsub q hq)
  · intro g hg
    have h := groups_pgdeleteEmpty (s := { s with zombproc := s.zombproc.erase p }) (s.proc p).pgid
      (fun g hg => ?_) g hg
    · obtain ⟨q, hq, hqg⟩ := h
      exact ⟨q, by simpa [Table.wait1, Table.procs] using hq, by simpa [Table.wait1] using hqg⟩
    · obtain ⟨q, hq, hqg⟩ := hI.groups g hg
      by_cases he : q = p
      · exact Or.inl (by rw [← hqg, he])
      · refine Or.inr ⟨q, ?_, hqg⟩
        simp only [Table.procs, List.mem_append] at hq ⊢
        exact hq.imp_right (List.mem_erase_of_ne he).2
  · intro q hq hl
    have hq' : q ∈ s.allproc := by simpa [Table.wait1] using hq
    simpa [Table.wait1] using hI.leaders q hq' (by simpa [Table.wait1] using hl)

/-- A change to a process that leaves its ids and its leadership. -/
theorem setProc {r : Proc P} (hpid : r.pid = (s.proc p).pid) (hpgid : r.pgid = (s.proc p).pgid)
    (hleader : r.leader = (s.proc p).leader) : Inv { s with proc := Function.update s.proc p r } := by
  have h : ∀ q, (Function.update s.proc p r q).pid = (s.proc q).pid ∧ (Function.update s.proc p r q).pgid = (s.proc q).pgid ∧
      (Function.update s.proc p r q).leader = (s.proc q).leader := by
    intro q
    by_cases he : q = p
    · subst he
      simp [hpid, hpgid, hleader]
    · simp [he]
  refine ⟨?_, hI.nonneg, hI.lt, hI.checked, ?_, ?_⟩
  · intro q hq
    simp only [h q]
    exact hI.sound q hq
  · intro g hg
    obtain ⟨q, hq, hqg⟩ := hI.groups g hg
    exact ⟨q, hq, (h q).2.1.trans hqg⟩
  · intro q hq hl
    simp only [h q] at hl ⊢
    exact hI.leaders q hq hl

theorem step {op : Op P} (hal : s.Allowed op) : ∃ s', s.step op = .ok s' ∧ Inv s' := by
  cases op with
  | fork1 p1 new =>
    obtain ⟨s', hs', hI'⟩ := hI.fork1 hal.1 hal.2.1 hal.2.2
    exact ⟨s', by simp [Table.step, hs'], hI'⟩
  | exit1 p => exact ⟨_, rfl, hI.exit1 hal.1⟩
  | wait1 q p => exact ⟨_, rfl, hI.wait1 p⟩
  | setpgid curp pid pgid inferior =>
    obtain ⟨s', hs', hI'⟩ := hI.setpgid hal pid pgid inferior
    exact ⟨s', by simp [Table.step, hs', liftPanic], hI'⟩
  | setsid p sess =>
    obtain ⟨s', hs', hI'⟩ := hI.setsid hal sess
    exact ⟨s', by simp [Table.step, hs', liftPanic], hI'⟩
  | procReparent p t => exact ⟨_, rfl, hI.setProc rfl rfl rfl⟩
  | exec p => exact ⟨_, rfl, hI.setProc rfl rfl rfl⟩

end Inv

/-! ## Runs -/

theorem Inv.boot (p0 init : P) : Inv (Table.boot p0 init) where
  sound := by simp [CacheSound, Table.boot]
  nonneg := le_rfl
  lt := by norm_num [Table.boot, PID_MAX]
  checked := by norm_num [Table.boot, PID_MAX]
  groups := by simp [Table.boot, Table.procs]
  leaders := by simp [Table.boot]

/-- In every run from boot the cached interval is sound, and while the ids suffice the search finds a new one. -/
theorem pid_runs (p0 init : P) (ops : List (Op P)) (h : Along step Allowed (.ok (Table.boot p0 init)) ops) :
    ∀ t ∈ states step (.ok (Table.boot p0 init)) ops, ∃ s, t = .ok s ∧ CacheSound s ∧ (s.Room → ForkFinds s) := by
  intro t ht
  have hrun := states_of_along (I := fun t => ∃ s, t = .ok s ∧ Inv s) ?_ ⟨_, rfl, Inv.boot p0 init⟩ h t ht
  · obtain ⟨s, rfl, hI⟩ := hrun
    exact ⟨s, rfl, hI.sound, hI.forkFinds⟩
  · rintro _ op ⟨s, rfl, hI⟩ hal
    exact hI.step (hal s rfl)

/-- `init` starts a session, its child a group; the child is reaped and another forked. -/
theorem pid_runs_init :
    ∃ s, final step (.ok (Table.boot 0 1)) [.fork1 0 1, .fork1 0 2, .setsid 1 1, .fork1 1 3, .setpgid 1 3 0 true,
      .fork1 3 4, .exit1 3, .wait1 1 3, .fork1 1 3] = .ok s ∧ CacheSound s ∧ (s.Room → ForkFinds s) :=
  pid_runs 0 1 _ (by decide +kernel) _ (final_mem_states _ _ _)

end BsdKernel.Pid
