import BsdKernel.Kern.Sig
import Mathlib.Tactic
/-!
# Runs of the signal sets

Each operation keeps the invariant of the sets (`Proc.Inv`). A round of the loops of `issignal`
and `execsigs` takes a signal out of a set, so the loops end.
-/

namespace BsdKernel.Sig

open BsdKernel.Lib

variable {m n signum : Nat} {A : Sigset}

/-! ## Masks of one signal -/

theorem sigmask_eq (m : Nat) : sigmask m = BitVec.twoPow 32 (m - 1) := (BitVec.twoPow_eq 32 (m - 1)).symm

@[simp] theorem getLsbD_sigmask (m i : Nat) : (sigmask m).getLsbD i = (decide (m - 1 < 32) && decide (m - 1 = i)) := by
  rw [sigmask_eq, BitVec.getLsbD_twoPow]

theorem sigmask_high (hm : m < NSIG) : (sigmask m).getLsbD 31 = false := by
  have h : m < 32 := hm
  rw [getLsbD_sigmask]
  simp only [Bool.and_eq_false_iff, decide_eq_false_iff_not]
  omega

theorem and_sigmask : A &&& sigmask m = 0 ↔ ¬Mem m A := by
  rw [sigmask_eq, and_twoPow_eq_zero]
  simp [Mem]

theorem and_sigmask_ne : A &&& sigmask m ≠ 0 ↔ Mem m A := by
  rw [ne_eq, and_sigmask, not_not]

theorem sigmask_and : sigmask m &&& A = 0 ↔ ¬Mem m A := by rw [and_eq_zero_comm, and_sigmask]

theorem mem_or {B : Sigset} : Mem n (A ||| B) ↔ Mem n A ∨ Mem n B := by simp [Mem]

theorem mem_sigmask (hm : 1 ≤ m) (hm' : m < NSIG) (hn : 1 ≤ n) : Mem n (sigmask m) ↔ n = m := by
  have h : m < 32 := hm'
  simp only [Mem, getLsbD_sigmask, Bool.and_eq_true, decide_eq_true_eq]
  omega

theorem mem_remove (hm : 1 ≤ m) (hm' : m < NSIG) (hn : 1 ≤ n) : Mem n (A &&& ~~~sigmask m) ↔ Mem n A ∧ n ≠ m := by
  have h := mem_sigmask hm hm' hn
  unfold Mem at h ⊢
  rw [BitVec.getLsbD_and, BitVec.getLsbD_not, Bool.and_eq_true]
  constructor
  · rintro ⟨ha, hb⟩
    exact ⟨ha, fun he => by simp [h.2 he] at hb⟩
  · rintro ⟨ha, hne⟩
    have hi := BitVec.lt_of_getLsbD ha
    have hb : (sigmask m).getLsbD (n - 1) = false := by
      cases hb : (sigmask m).getLsbD (n - 1) with
      | false => rfl
      | true => exact absurd (h.1 hb) hne
    rw [hb]
    simp [ha, hi]

theorem not_mem_cant (h : A &&& sigcantmask = 0) : ¬Mem SIGKILL A ∧ ¬Mem SIGSTOP A := by
  have hk := and_eq_zero.1 (and_eq_zero_comm.1 h) (SIGKILL - 1) (by decide)
  have hs := and_eq_zero.1 (and_eq_zero_comm.1 h) (SIGSTOP - 1) (by decide)
  exact ⟨by simp [Mem, hk], by simp [Mem, hs]⟩

theorem sigmask_cant (hm : 1 ≤ m) (hm' : m < NSIG) (hk : m ≠ SIGKILL) (hs : m ≠ SIGSTOP) :
    sigmask m &&& sigcantmask = 0 := by
  have h : m < 32 := hm'
  refine and_eq_zero.2 fun i hi => ?_
  simp only [getLsbD_sigmask, Bool.and_eq_true, decide_eq_true_eq] at hi
  simp only [sigcantmask, BitVec.getLsbD_or, getLsbD_sigmask, SIGKILL, SIGSTOP] at hk hs ⊢
  simp only [Bool.or_eq_false_iff, Bool.and_eq_false_iff, decide_eq_false_iff_not]
  omega

theorem sigmask_ne (hm : 1 ≤ m) (hn : 1 ≤ n) (h : m ≠ n) : sigmask m &&& sigmask n = 0 := by
  refine and_eq_zero.2 fun i hi => ?_
  simp only [getLsbD_sigmask, Bool.and_eq_true, decide_eq_true_eq] at hi
  simp only [getLsbD_sigmask, Bool.and_eq_false_iff, decide_eq_false_iff_not]
  omega

theorem sub_remove {B : Sigset} (i : Nat) (h : (A &&& B).getLsbD i = true) : A.getLsbD i = true := by
  simp_all

theorem ffs_spec (h : A ≠ 0) (hh : A.getLsbD 31 = false) : 1 ≤ ffs A ∧ ffs A < NSIG ∧ Mem (ffs A) A := by
  obtain ⟨i, hi⟩ : ∃ i, lowest A = some i := Option.ne_none_iff_exists'.1 (mt lowest_none.1 h)
  obtain ⟨hlt, ha⟩ := lowest_some hi
  have he : ffs A = i + 1 := by simp [ffs, hi]
  have hne : i ≠ 31 := fun h31 => Bool.false_ne_true ((h31 ▸ hh).symm.trans ha)
  rw [he]
  exact ⟨by omega, by simp only [NSIG]; omega, ha⟩

theorem bits_remove (hm : m < NSIG) (h : Mem m A) : bits (A &&& ~~~sigmask m) < bits A := by
  have hlt : m < 32 := hm
  refine bits_lt sub_remove h ?_
  rw [BitVec.getLsbD_and, BitVec.getLsbD_not, getLsbD_sigmask]
  simp only [decide_true, Bool.and_true, Bool.and_eq_false_iff, Bool.not_eq_false', decide_eq_true_eq]
  omega

/-! ## The invariant -/

/-- The invariant of a process: its sets are consistent and hold only signals. -/
structure Proc.Inv (p : Proc) : Prop where
  sets : p.Consistent
  catchHigh : p.sigcatch.getLsbD 31 = false
  listHigh : p.siglist.getLsbD 31 = false

namespace Proc.Inv
variable {p q : Proc} (h : p.Inv)
include h

theorem congr (h₁ : q.sigmask = p.sigmask) (h₂ : q.siglist = p.siglist) (h₃ : q.sigcatch = p.sigcatch)
    (h₄ : q.sigignore = p.sigignore) (h₅ : q.sigact = p.sigact) (h₆ : q.catchmask = p.catchmask) : q.Inv := by
  obtain ⟨⟨a, b, c, d, e, f, g, i, j⟩, k, l⟩ := h
  refine ⟨⟨?_, ?_, ?_, ?_, ?_, ?_, ?_, ?_, ?_⟩, ?_, ?_⟩ <;> simp only [h₁, h₂, h₃, h₄, h₅, h₆] <;> assumption

theorem setMask {m : Sigset} (hm : m &&& sigcantmask = 0) : Proc.Inv { p with sigmask := m } :=
  ⟨⟨hm, h.sets.catchmask, h.sets.disjoint, h.sets.catchCant, h.sets.ignoreCant, h.sets.action, h.sets.cont, h.sets.pending,
    h.sets.contStop⟩, h.catchHigh, h.listHigh⟩

theorem setList {l : Sigset} (hl : l &&& p.sigignore = 0) (hc : l &&& contsigmask = 0 ∨ l &&& stopsigmask = 0)
    (hh : l.getLsbD 31 = false) : Proc.Inv { p with siglist := l } :=
  ⟨⟨h.sets.mask, h.sets.catchmask, h.sets.disjoint, h.sets.catchCant, h.sets.ignoreCant, h.sets.action, h.sets.cont, hl, hc⟩,
    h.catchHigh, hh⟩

theorem clear (mask : Sigset) : (p.clear mask).Inv := by
  refine h.setList (remove_and_eq_zero h.sets.pending) ?_ (by rw [BitVec.getLsbD_and, h.listHigh]; rfl)
  exact h.sets.contStop.imp remove_and_eq_zero remove_and_eq_zero

theorem setSched (sched : Sched) : Proc.Inv { p with sched := sched } := h.congr rfl rfl rfl rfl rfl rfl

theorem setXstat (x : Nat) (sched : Sched) : Proc.Inv { p with xstat := x, sched := sched } :=
  h.congr rfl rfl rfl rfl rfl rfl

theorem setCode (signum code : Nat) : Proc.Inv { p with sasOldmask := false, psSig := signum, psCode := code } :=
  h.congr rfl rfl rfl rfl rfl rfl

theorem setrunnable : p.setrunnable.Inv := h.setSched _

theorem runfast : p.runfast.Inv := (h.setSched _).setrunnable

/-- A signal that is not ignored, `SIGCONT` and the stop signals cancelling each other, is pending. -/
theorem post (hs : 1 ≤ signum) (hs' : signum < NSIG) (hi : ¬Mem signum p.sigignore)
    (hc : (sigprop signum).cont = true → p.siglist &&& stopsigmask = 0)
    (hst : (sigprop signum).stop = true → p.siglist &&& contsigmask = 0) :
    Proc.Inv { p with siglist := p.siglist ||| Sig.sigmask signum } := by
  refine h.setList (or_and_eq_zero h.sets.pending (sigmask_and.2 hi)) ?_ ?_
  · by_cases h19 : signum = SIGCONT
    · right
      subst h19
      exact or_and_eq_zero (hc rfl) (by decide)
    · have hcont : Sig.sigmask signum &&& contsigmask = 0 := sigmask_ne hs (by decide) h19
      by_cases hstop : (sigprop signum).stop = true
      · exact Or.inl (or_and_eq_zero (hst hstop) hcont)
      · have hother : Sig.sigmask signum &&& stopsigmask = 0 := by
          have hne : signum ≠ SIGSTOP ∧ signum ≠ SIGTSTP ∧ signum ≠ SIGTTIN ∧ signum ≠ SIGTTOU := by
            refine ⟨?_, ?_, ?_, ?_⟩ <;> (rintro rfl; exact hstop rfl)
          rw [and_eq_zero_comm]
          exact or_and_eq_zero (or_and_eq_zero (or_and_eq_zero (sigmask_ne (by decide) hs hne.1.symm)
            (sigmask_ne (by decide) hs hne.2.1.symm)) (sigmask_ne (by decide) hs hne.2.2.1.symm))
            (sigmask_ne (by decide) hs hne.2.2.2.symm)
        exact h.sets.contStop.imp (or_and_eq_zero · hcont) (or_and_eq_zero · hother)
  · rw [BitVec.getLsbD_or, h.listHigh, Bool.false_or]
    exact sigmask_high hs'

theorem psignalStat (signum : Nat) (action : Action) : (p.psignalStat signum action).Inv := by
  unfold Proc.psignalStat
  cases p.sched.stat with
  | SSLEEP =>
    simp only
    split_ifs
    · exact h
    · exact h.clear _
    · exact h.runfast
    · exact h
    · exact (h.clear _).setXstat _ _
    · exact h.runfast
  | SSTOP =>
    simp only
    by_cases hkill : signum = SIGKILL
    · rw [if_pos hkill]
      exact h.runfast
    rw [if_neg hkill]
    by_cases hcont : (sigprop signum).cont = true
    · rw [if_pos hcont]
      have hp : Proc.Inv (if action = .SIG_DFL then p.clear (Sig.sigmask signum) else p) := by
        split
        · exact h.clear _
        · exact h
      generalize (if action = .SIG_DFL then p.clear (Sig.sigmask signum) else p) = q at hp ⊢
      split_ifs
      · exact hp.runfast
      · exact hp.setrunnable
      · exact hp.setSched _
    · rw [if_neg hcont]
      split_ifs
      · exact h.clear _
      · exact h.setSched _
      · exact h
  | SRUN => exact h
  | SIDL => exact h
  | SZOMB => exact h

omit h in
theorem psignalStat_same (signum : Nat) (action : Action) :
    (p.psignalStat signum action).sigmask = p.sigmask ∧ (p.psignalStat signum action).sigact = p.sigact := by
  unfold Proc.psignalStat
  cases p.sched.stat with
  | SSLEEP =>
    simp only
    split_ifs <;> exact ⟨rfl, rfl⟩
  | SSTOP =>
    simp only
    split_ifs <;> exact ⟨rfl, rfl⟩
  | SRUN => exact ⟨rfl, rfl⟩
  | SIDL => exact ⟨rfl, rfl⟩
  | SZOMB => exact ⟨rfl, rfl⟩

/-- A signal may come at any time: it changes neither the mask nor the actions. -/
theorem psignal (hs : 0 < signum) (hs' : signum < NSIG) :
    ∃ q, p.psignal signum = .ok q ∧ q.Inv ∧ q.sigmask = p.sigmask ∧ q.sigact = p.sigact := by
  unfold Proc.psignal
  rw [if_neg (by omega)]
  simp only
  by_cases hign : p.sigignore &&& Sig.sigmask signum ≠ 0
  · rw [if_pos hign]
    exact ⟨p, rfl, h, rfl, rfl⟩
  rw [if_neg hign]
  have hnot : ¬Mem signum p.sigignore := and_sigmask.1 (not_not.1 hign)
  generalize p.action (Sig.sigmask signum) = action
  -- the niceness
  obtain ⟨p₁, he₁, h₁, hi₁, hm₁, ha₁⟩ : ∃ p₁, (if p.sched.nice > NZERO ∧ action = .SIG_DFL ∧ (sigprop signum).kill = true then
      { p with sched := { p.sched with nice := NZERO } } else p) = p₁ ∧ p₁.Inv ∧ p₁.sigignore = p.sigignore ∧
      p₁.sigmask = p.sigmask ∧ p₁.sigact = p.sigact := by
    split
    · exact ⟨_, rfl, h.setSched _, rfl, rfl, rfl⟩
    · exact ⟨_, rfl, h, rfl, rfl, rfl⟩
  rw [he₁]
  -- `SIGCONT` takes the stop signals back
  obtain ⟨p₂, he₂, h₂, hi₂, hm₂, ha₂, hc₂⟩ : ∃ p₂, (if (sigprop signum).cont = true then p₁.clear stopsigmask else p₁) = p₂ ∧
      p₂.Inv ∧ p₂.sigignore = p.sigignore ∧ p₂.sigmask = p.sigmask ∧ p₂.sigact = p.sigact ∧
      ((sigprop signum).cont = true → p₂.siglist &&& stopsigmask = 0) := by
    split
    · exact ⟨_, rfl, h₁.clear _, hi₁, hm₁, ha₁, fun _ => and_not_and_eq_zero⟩
    · next hc => exact ⟨_, rfl, h₁, hi₁, hm₁, ha₁, fun hn => absurd hn hc⟩
  rw [he₂]
  by_cases hcatch : (sigprop signum).stop = true ∧ (sigprop signum).ttystop = true ∧ p₂.sched.orphan = true ∧ action = .SIG_DFL
  · rw [if_pos hcatch]
    exact ⟨p₂, rfl, h₂, hm₂, ha₂⟩
  rw [if_neg hcatch]
  -- a stop signal takes `SIGCONT` back
  obtain ⟨p₃, he₃, h₃, hi₃, hm₃, ha₃, hc₃, hs₃⟩ : ∃ p₃, (if (sigprop signum).stop = true then p₂.clear contsigmask else p₂) = p₃ ∧
      p₃.Inv ∧ p₃.sigignore = p.sigignore ∧ p₃.sigmask = p.sigmask ∧ p₃.sigact = p.sigact ∧
      ((sigprop signum).cont = true → p₃.siglist &&& stopsigmask = 0) ∧
      ((sigprop signum).stop = true → p₃.siglist &&& contsigmask = 0) := by
    split
    · exact ⟨_, rfl, h₂.clear _, hi₂, hm₂, ha₂, fun hc => remove_and_eq_zero (hc₂ hc), fun _ => and_not_and_eq_zero⟩
    · next hst => exact ⟨_, rfl, h₂, hi₂, hm₂, ha₂, hc₂, fun hn => absurd hn hst⟩
  rw [he₃]
  have hpost := h₃.post hs hs' (by rwa [hi₃]) hc₃ hs₃
  split_ifs
  · exact ⟨_, rfl, hpost, hm₃, ha₃⟩
  · obtain ⟨hm, ha⟩ := psignalStat_same (p := { p₃ with siglist := p₃.siglist ||| Sig.sigmask signum }) signum action
    exact ⟨_, rfl, hpost.psignalStat signum action, hm.trans hm₃, ha.trans ha₃⟩

/-! ## Actions -/

theorem setCatchmask (n : Nat) (mask : Sigset) :
    Proc.Inv { p with catchmask := Function.update p.catchmask n (mask &&& ~~~sigcantmask) } := by
  refine ⟨⟨h.sets.mask, fun m => ?_, h.sets.disjoint, h.sets.catchCant, h.sets.ignoreCant, h.sets.action, h.sets.cont,
    h.sets.pending, h.sets.contStop⟩, h.catchHigh, h.listHigh⟩
  by_cases he : m = n
  · simp only [he, Function.update_self]
    exact and_not_and_eq_zero
  · simp only [Function.update_of_ne he]
    exact h.sets.catchmask m

theorem uncatch (hn : 1 ≤ n) (hn' : n < NSIG) {handler : Handler} (hh : handler = SIG_DFL ∨ handler = SIG_IGN) :
    Proc.Inv { p with
      sigact := Function.update p.sigact n handler, sigcatch := p.sigcatch &&& ~~~Sig.sigmask n } := by
  refine ⟨⟨h.sets.mask, h.sets.catchmask, remove_and_eq_zero h.sets.disjoint, remove_and_eq_zero h.sets.catchCant,
    h.sets.ignoreCant, fun m hm hm' => ?_, h.sets.cont, h.sets.pending, h.sets.contStop⟩, ?_, h.listHigh⟩
  · simp only
    rw [mem_remove hn hn' hm]
    by_cases he : m = n
    · subst he
      rw [Function.update_self]
      have hno : ¬(handler ≠ SIG_DFL ∧ handler ≠ SIG_IGN) := fun hb => hh.elim hb.1 hb.2
      exact iff_of_false (fun hb => hb.2 rfl) hno
    · rw [Function.update_of_ne he, h.sets.action m hm hm']
      exact and_iff_left he
  · rw [BitVec.getLsbD_and, h.catchHigh]
    rfl

/-- A signal that is caught, and so not ignored. -/
theorem caught (hn : 1 ≤ n) (hn' : n < NSIG) (hk : n ≠ SIGKILL) (hs : n ≠ SIGSTOP) {handler : Handler}
    (hd : handler ≠ SIG_DFL) (hi : handler ≠ SIG_IGN) :
    Proc.Inv { p with
      sigact := Function.update p.sigact n handler
      sigignore := p.sigignore &&& ~~~Sig.sigmask n
      sigcatch := p.sigcatch ||| Sig.sigmask n } := by
  refine ⟨⟨h.sets.mask, h.sets.catchmask, ?_, or_and_eq_zero h.sets.catchCant (sigmask_cant hn hn' hk hs),
    remove_and_eq_zero h.sets.ignoreCant, fun m hm hm' => ?_, remove_and_eq_zero h.sets.cont,
    and_remove_eq_zero h.sets.pending, h.sets.contStop⟩, ?_, h.listHigh⟩
  · exact or_and_eq_zero (and_remove_eq_zero h.sets.disjoint) (and_eq_zero_comm.1 and_not_and_eq_zero)
  · simp only
    rw [mem_or, mem_sigmask hn hn' hm]
    by_cases he : m = n
    · subst he
      rw [Function.update_self]
      exact iff_of_true (Or.inr rfl) ⟨hd, hi⟩
    · rw [Function.update_of_ne he, h.sets.action m hm hm']
      exact or_iff_left he
  · rw [BitVec.getLsbD_or, h.catchHigh, Bool.false_or]
    exact sigmask_high hn'

theorem unignore (mask : Sigset) : Proc.Inv { p with sigignore := p.sigignore &&& ~~~mask } :=
  ⟨⟨h.sets.mask, h.sets.catchmask, and_remove_eq_zero h.sets.disjoint, h.sets.catchCant, remove_and_eq_zero h.sets.ignoreCant,
    h.sets.action, remove_and_eq_zero h.sets.cont, and_remove_eq_zero h.sets.pending, h.sets.contStop⟩, h.catchHigh, h.listHigh⟩

/-- A signal whose default is to be ignored is ignored, and no longer pending. -/
theorem ignore (hn : 1 ≤ n) (hn' : n < NSIG) (hk : n ≠ SIGKILL) (hs : n ≠ SIGSTOP) (hc : ¬Mem n p.sigcatch) :
    Proc.Inv { p with
      sigignore := if n ≠ SIGCONT then p.sigignore ||| Sig.sigmask n else p.sigignore
      siglist := p.siglist &&& ~~~Sig.sigmask n } := by
  refine ⟨⟨h.sets.mask, h.sets.catchmask, ?_, h.sets.catchCant, ?_, h.sets.action, ?_, ?_,
    h.sets.contStop.imp remove_and_eq_zero remove_and_eq_zero⟩, h.catchHigh, ?_⟩
  · simp only
    split_ifs
    · exact and_or_eq_zero h.sets.disjoint (and_sigmask.2 hc)
    · exact h.sets.disjoint
  · simp only
    split_ifs
    · exact or_and_eq_zero h.sets.ignoreCant (sigmask_cant hn hn' hk hs)
    · exact h.sets.ignoreCant
  · simp only
    split_ifs with he
    · exact or_and_eq_zero h.sets.cont (sigmask_ne hn (by decide) he)
    · exact h.sets.cont
  · simp only
    split_ifs
    · exact and_or_eq_zero (remove_and_eq_zero h.sets.pending) and_not_and_eq_zero
    · exact remove_and_eq_zero h.sets.pending
  · rw [BitVec.getLsbD_and, h.listHigh]
    rfl

theorem setsigvec (hs : 1 ≤ signum) (hs' : signum < NSIG) (hk : signum ≠ SIGKILL) (hst : signum ≠ SIGSTOP)
    (sa : Sigaction) : (p.setsigvec signum sa).Inv := by
  have hm := h.setCatchmask signum sa.mask
  unfold Proc.setsigvec
  simp only
  by_cases hig : sa.handler = SIG_IGN ∨ ((sigprop signum).ignore = true ∧ sa.handler = SIG_DFL)
  · rw [if_pos hig]
    have hu := hm.uncatch hs hs' (hig.symm.imp_left And.right)
    have hout : ¬Mem signum (p.sigcatch &&& ~~~Sig.sigmask signum) := fun hc => ((mem_remove hs hs' hs).1 hc).2 rfl
    exact (hu.ignore hs hs' hk hst hout).congr rfl rfl rfl rfl rfl rfl
  · rw [if_neg hig]
    by_cases hd : sa.handler = SIG_DFL
    · simp only [if_pos hd]
      exact ((hm.uncatch hs hs' (Or.inl hd)).unignore (Sig.sigmask signum)).congr rfl rfl rfl rfl rfl rfl
    · simp only [if_neg hd]
      exact (hm.caught hs hs' hk hst hd (fun hi => hig (Or.inl hi))).congr rfl rfl rfl rfl rfl rfl

theorem sigaction (signum : Int) (nsa : Option Sigaction) : (p.sigaction signum nsa).Inv := by
  unfold Proc.sigaction
  split_ifs with hbad
  · exact h
  · obtain ⟨h₁, h₂, h₃, h₄⟩ : 0 < signum ∧ signum < NSIG ∧ signum ≠ SIGKILL ∧ signum ≠ SIGSTOP := by
      simp only [not_or, not_le, ge_iff_le] at hbad
      exact hbad
    cases nsa with
    | none => exact h
    | some sa => exact h.setsigvec (by omega) (by omega) (by omega) (by omega) sa

theorem sigvec (signum : Int) (nsv : Option Sigaction) : (p.sigvec signum nsv).Inv := by
  have he : p.sigvec signum nsv =
      p.sigaction signum (nsv.map fun sv => { sv with flags := sv.flags ^^^ SA_RESTART }) := by
    cases nsv <;> rfl
  rw [he]
  exact h.sigaction signum _

/-! ## Masks -/

theorem sigprocmask (how : Nat) (mask : Sigset) : (p.sigprocmask how mask).Inv := by
  unfold Proc.sigprocmask
  split
  · exact h.setMask (or_and_eq_zero h.sets.mask and_not_and_eq_zero)
  · exact h.setMask (remove_and_eq_zero h.sets.mask)
  · exact h.setMask and_not_and_eq_zero
  · exact h

theorem sigblock (mask : Sigset) : (p.sigblock mask).Inv :=
  h.setMask (or_and_eq_zero h.sets.mask and_not_and_eq_zero)

theorem sigsetmask (mask : Sigset) : (p.sigsetmask mask).Inv := h.setMask and_not_and_eq_zero

theorem sigsuspend (mask : Sigset) : (p.sigsuspend mask).Inv :=
  (h.setMask (m := mask &&& ~~~sigcantmask) and_not_and_eq_zero).congr rfl rfl rfl rfl rfl rfl

theorem sigreturn (mask : Sigset) : (p.sigreturn mask).Inv := by
  refine h.setMask (and_eq_zero.2 fun i hi => ?_)
  have hlt := BitVec.lt_of_getLsbD hi
  simp only [BitVec.getLsbD_and, BitVec.getLsbD_not, BitVec.getLsbD_or, hlt, decide_true, Bool.true_and, Bool.and_eq_true,
    Bool.not_eq_true', Bool.or_eq_false_iff] at hi
  simp only [sigcantmask, BitVec.getLsbD_or, hi.2.1.1, hi.2.2, Bool.or_self]

/-! ## Resetting actions -/

/-- A round of `execsigs` sets one caught signal back to its default. -/
theorem execRound : p.execRound.elim (fun q => q.Inv ∧ bits q.sigcatch < bits p.sigcatch) Proc.Inv := by
  unfold Proc.execRound
  by_cases hz : p.sigcatch = 0
  · rw [if_pos hz]
    exact h
  rw [if_neg hz]
  obtain ⟨hn, hn', hmem⟩ := ffs_spec hz h.catchHigh
  obtain ⟨hk, hs⟩ := not_mem_cant h.sets.catchCant
  have hk' : ffs p.sigcatch ≠ SIGKILL := fun he => hk (he ▸ hmem)
  have hs' : ffs p.sigcatch ≠ SIGSTOP := fun he => hs (he ▸ hmem)
  have hbits := bits_remove hn' hmem
  generalize ffs p.sigcatch = nc at *
  have hd := h.uncatch hn hn' (Or.inl rfl)
  have hout : ¬Mem nc (p.sigcatch &&& ~~~Sig.sigmask nc) := fun hm => ((mem_remove hn hn' hn).1 hm).2 rfl
  simp only [Sum.elim_inl]
  split
  · exact ⟨(hd.ignore hn hn' hk' hs' hout).congr rfl rfl rfl rfl rfl rfl, hbits⟩
  · exact ⟨hd.congr rfl rfl rfl rfl rfl rfl, hbits⟩

/-- The loop of `execsigs` ends. -/
theorem execsigs : ∃ q, p.execsigs = some q ∧ q.Inv := by
  obtain ⟨q, hq, hinv⟩ : ∃ q, loop Proc.execRound 33 p = some q ∧ q.Inv :=
    loop_total (fun _ hp => hp.execRound) h (Nat.lt_succ_of_le bits_le)
  refine ⟨{ q with sasOldmask := false }, ?_, hinv.congr rfl rfl rfl rfl rfl rfl⟩
  rw [Proc.execsigs, hq]
  rfl

/-! ## Taking signals -/

theorem sendsig (room : Bool) : ∃ q, p.sendsig room = .ok q ∧ q.Inv := by
  unfold Proc.sendsig
  cases room with
  | true => exact ⟨p, rfl, h⟩
  | false =>
    have hr := ((h.uncatch (show 1 ≤ SIGILL by decide) (by decide) (Or.inl rfl)).unignore (Sig.sigmask SIGILL)).setMask
      (m := p.sigmask &&& ~~~Sig.sigmask SIGILL) (remove_and_eq_zero h.sets.mask)
    obtain ⟨q, hq, hinv, -⟩ := hr.psignal (show 0 < SIGILL by decide) (by decide)
    exact ⟨q, hq, hinv⟩

theorem mask_handler {m : Sigset} (hs : 1 ≤ signum) (hs' : signum < NSIG) (hk : signum ≠ SIGKILL)
    (hst : signum ≠ SIGSTOP) (hm : m &&& sigcantmask = 0) :
    (m ||| (p.catchmask signum ||| Sig.sigmask signum)) &&& sigcantmask = 0 :=
  or_and_eq_zero hm (or_and_eq_zero (h.sets.catchmask signum) (sigmask_cant hs hs' hk hst))

theorem trapsignal (hs : 0 < signum) (hs' : signum < NSIG) (code : Nat) (room : Bool) :
    ∃ q, p.trapsignal signum code room = .ok q ∧ q.Inv := by
  unfold Proc.trapsignal
  simp only
  split_ifs with hc
  · obtain ⟨q, hq, hinv⟩ := h.sendsig room
    have hmem : Mem signum p.sigcatch := and_sigmask_ne.1 hc.1
    obtain ⟨hk, hst⟩ := not_mem_cant h.sets.catchCant
    have hmask := hinv.mask_handler hs hs' (fun he => hk (he ▸ hmem)) (fun he => hst (he ▸ hmem)) hinv.sets.mask
    rw [hq]
    exact ⟨_, rfl, hinv.setMask hmask⟩
  · have hp : Proc.Inv { p with psCode := code, psSig := signum } := h.congr rfl rfl rfl rfl rfl rfl
    obtain ⟨q, hq, hinv, -⟩ := hp.psignal hs hs'
    exact ⟨q, hq, hinv⟩

/-- A round of `issignal` takes a signal back, or ends with what it may return. -/
theorem issignalRound : p.issignalRound.elim (fun q => q.Inv ∧ bits q.siglist < bits p.siglist)
    fun r => r.1.Inv ∧ ∀ n, r.2 = .ret n → Returns r.1 n := by
  unfold Proc.issignalRound
  simp only
  -- the signals that the round looks at
  obtain ⟨mask, he, hsub⟩ : ∃ mask, (if p.sched.ppwait = true then p.siglist &&& ~~~p.sigmask &&& ~~~stopsigmask
      else p.siglist &&& ~~~p.sigmask) = mask ∧
      ∀ i, mask.getLsbD i = true → p.siglist.getLsbD i = true ∧ p.sigmask.getLsbD i = false := by
    have hmask : ∀ i, (p.siglist &&& ~~~p.sigmask).getLsbD i = true →
        p.siglist.getLsbD i = true ∧ p.sigmask.getLsbD i = false := by
      intro i hi
      have hlt := BitVec.lt_of_getLsbD hi
      simpa [hlt] using hi
    split
    · exact ⟨_, rfl, fun i hi => hmask i (sub_remove i hi)⟩
    · exact ⟨_, rfl, hmask⟩
  rw [he]
  by_cases hz : mask = 0
  · rw [if_pos hz]
    exact ⟨h, fun n hn => Or.inl (Taken.ret.inj hn).symm⟩
  rw [if_neg hz]
  have hhigh : mask.getLsbD 31 = false := by
    cases hm : mask.getLsbD 31 with
    | false => rfl
    | true => exact absurd ((hsub 31 hm).1.symm.trans h.listHigh) (by decide)
  obtain ⟨hn, hn', hmem⟩ := ffs_spec hz hhigh
  obtain ⟨hpend, hunmask⟩ := hsub _ hmem
  generalize ffs mask = signum at *
  have hfree : ¬Mem signum p.sigmask := by simp [Mem, hunmask]
  have hclear : (p.clear (Sig.sigmask signum)).Inv ∧ bits (p.clear (Sig.sigmask signum)).siglist < bits p.siglist :=
    ⟨h.clear _, bits_remove hn' hpend⟩
  split_ifs with hig hact hpid hst hor hign hignore
  · exact hclear
  · exact hclear
  · exact hclear
  · exact ⟨h.setXstat _ _, fun n hr => Taken.noConfusion hr⟩
  · exact hclear
  · -- the default kills the process
    have hkill : ∀ m < 32, 1 ≤ m → ¬(sigprop m).stop = true → ¬(sigprop m).ignore = true → (sigprop m).kill = true := by
      decide
    have hret : Returns p signum := Or.inr ⟨hn, hn', hpend, hfree, Or.inr ⟨hact, hkill signum hn' hn hst hign⟩⟩
    exact ⟨h, fun n hr => Taken.ret.inj hr ▸ hret⟩
  · exact hclear
  · have hcatch : Mem signum p.sigcatch := (h.sets.action signum hn hn').2 ⟨hact, hignore⟩
    have hret : Returns p signum := Or.inr ⟨hn, hn', hpend, hfree, Or.inl hcatch⟩
    exact ⟨h, fun n hr => Taken.ret.inj hr ▸ hret⟩

/-- The loop of `issignal` ends. -/
theorem issignal : ∃ r, p.issignal = some r ∧ r.1.Inv ∧ ∀ n, r.2 = .ret n → Returns r.1 n :=
  loop_total (fun _ hp => hp.issignalRound) h (Nat.lt_succ_of_le bits_le)

/-- `postsig` of a signal that is neither masked nor ignored does not panic. -/
theorem postsig (hs : 1 ≤ signum) (hs' : signum < NSIG) (hm : ¬Mem signum p.sigmask) (ha : p.sigact signum ≠ SIG_IGN)
    (room : Bool) : p.postsig signum room = .ok none ∨ ∃ q, p.postsig signum room = .ok (some q) ∧ q.Inv := by
  unfold Proc.postsig
  rw [if_neg (by omega)]
  simp only
  by_cases hd : (p.clear (Sig.sigmask signum)).sigact signum = SIG_DFL
  · rw [if_pos hd]
    exact Or.inl rfl
  have hno : ¬((p.clear (Sig.sigmask signum)).sigact signum = SIG_IGN ∨
      (p.clear (Sig.sigmask signum)).sigmask &&& Sig.sigmask signum ≠ 0) :=
    not_or.2 ⟨ha, not_not.2 (and_sigmask.2 hm)⟩
  rw [if_neg hd, if_neg hno]
  have hmem : Mem signum p.sigcatch := (h.sets.action signum hs hs').2 ⟨hd, ha⟩
  obtain ⟨hk, hst⟩ := not_mem_cant h.sets.catchCant
  have hc := h.clear (Sig.sigmask signum)
  have hp := hc.setMask (hc.mask_handler hs hs' (fun he => hk (he ▸ hmem)) (fun he => hst (he ▸ hmem)) hc.sets.mask)
  right
  split_ifs
  · obtain ⟨q, hq, hinv⟩ := (hp.setCode p.psSig p.psCode).sendsig room
    exact ⟨q, congrArg (some <$> ·) hq, hinv⟩
  · obtain ⟨q, hq, hinv⟩ := (hp.setCode 0 0).sendsig room
    exact ⟨q, congrArg (some <$> ·) hq, hinv⟩

end Proc.Inv

theorem Proc.Inv.boot : Proc.boot.Inv := by
  refine ⟨⟨by decide, fun n => by simp [Proc.boot], by decide, by decide, by decide, fun n _ _ => ?_, by decide, by decide,
    Or.inl (by decide)⟩, by decide, by decide⟩
  simp [Proc.boot, Mem]

/-! ## Runs -/

namespace Sys

/-- The invariant of a run: the sets, and that a signal `issignal` has returned can still be posted. -/
structure Inv (s : Sys) : Prop where
  proc : s.proc.Inv
  got : ∀ n, s.pc = .got n → 1 ≤ n ∧ n < NSIG ∧ ¬Mem n s.proc.sigmask ∧ s.proc.sigact n ≠ SIG_IGN

/-- The ends of a step: the process goes on, or it has exited. -/
def Goes (t : Except Stop Sys) : Prop := t = .error .exited ∨ ∃ s, t = .ok s ∧ s.Inv

theorem Inv.run {p : Proc} (h : p.Inv) : Goes (.ok ⟨p, .run⟩) := Or.inr ⟨_, rfl, h, fun _ hn => Pc.noConfusion hn⟩

namespace Inv
variable {s : Sys} (h : s.Inv)
include h

theorem entry : s.entry.Inv := by
  unfold Sys.entry
  split
  · exact h.proc.clear _
  · exact h.proc
  · exact h.proc

theorem issignal : Goes s.issignal := by
  obtain ⟨⟨p, t⟩, he, hp, hret⟩ := h.entry.issignal
  unfold Sys.issignal
  rw [he]
  cases t with
  | ret n =>
    refine Or.inr ⟨_, rfl, hp, fun m hm => ?_⟩
    by_cases hz : n = 0
    · simp [hz] at hm
    · simp only [if_neg hz, Pc.got.injEq] at hm
      subst hm
      obtain hz' | ⟨hn, hn', -, hmask, hact⟩ := hret n rfl
      · exact absurd hz' hz
      · refine ⟨hn, hn', hmask, ?_⟩
        obtain hc | ⟨hd, -⟩ := hact
        · exact ((hp.sets.action n hn hn').1 hc).2
        · exact fun hi => absurd (hd.symm.trans hi) (by decide)
  | stop n => exact Or.inr ⟨_, rfl, hp, fun m hm => Pc.noConfusion hm⟩

theorem postsig (room : Bool) (hal : ∃ n, s.pc = .got n) : Goes (s.postsig room) := by
  obtain ⟨n, hn⟩ := hal
  obtain ⟨h₁, h₂, hmask, hact⟩ := h.got n hn
  unfold Sys.postsig
  rw [hn]
  obtain he | ⟨q, he, hq⟩ := h.proc.postsig h₁ h₂ hmask hact room
  · exact Or.inl (by simp only [he]; rfl)
  · simp only [he]
    exact Inv.run hq

theorem step {op : Op} (hal : s.Allowed op) : Goes (s.step op) := by
  cases op with
  | sigaction signum nsa => exact Inv.run (h.proc.sigaction signum nsa)
  | sigvec signum nsv => exact Inv.run (h.proc.sigvec signum nsv)
  | sigprocmask how mask => exact Inv.run (h.proc.sigprocmask how mask)
  | sigblock mask => exact Inv.run (h.proc.sigblock mask)
  | sigsetmask mask => exact Inv.run (h.proc.sigsetmask mask)
  | sigsuspend mask => exact Inv.run (h.proc.sigsuspend mask)
  | sigreturn mask => exact Inv.run (h.proc.sigreturn mask)
  | execsigs =>
    obtain ⟨q, he, hq⟩ := h.proc.execsigs
    simp only [Sys.step, he]
    exact Inv.run hq
  | trapsignal signum code room =>
    obtain ⟨q, he, hq⟩ := h.proc.trapsignal hal.1 hal.2.1 code room
    simp only [Sys.step, he]
    exact Inv.run hq
  | issignal => exact h.issignal
  | postsig room => exact h.postsig room hal
  | fork pid =>
    have hp : Proc.Inv { s.proc with siglist := 0 } := h.proc.setList (by simp) (Or.inl (by simp)) (by simp)
    exact Inv.run (hp.congr rfl rfl rfl rfl rfl rfl)
  | psignal signum =>
    obtain ⟨q, he, hq, hm, ha⟩ := h.proc.psignal hal.1 hal.2
    simp only [Sys.step, he]
    refine Or.inr ⟨_, rfl, hq, fun n hn => ?_⟩
    simp only
    rw [hm, ha]
    exact h.got n hn
  | sched sched => exact Or.inr ⟨_, rfl, h.proc.setSched sched, h.got⟩

end Inv

end Sys

instance (pc : Pc) : Decidable (∀ n, pc ≠ .stopped n) :=
  match pc with
  | .run | .got _ => isTrue fun _ => Pc.noConfusion
  | .stopped n => isFalse fun h => h n rfl

instance (pc : Pc) : Decidable (∃ n, pc = .got n) :=
  match pc with
  | .got n => isTrue ⟨n, rfl⟩
  | .run | .stopped _ => isFalse fun ⟨_, h⟩ => Pc.noConfusion h

instance (s : Sys) : (op : Op) → Decidable (s.Allowed op)
  | .psignal signum => inferInstanceAs (Decidable (0 < signum ∧ signum < NSIG))
  | .sched _ | .issignal => isTrue trivial
  | .trapsignal signum _ _ => inferInstanceAs (Decidable (0 < signum ∧ signum < NSIG ∧ ∀ n, s.pc ≠ .stopped n))
  | .postsig _ => inferInstanceAs (Decidable (∃ n, s.pc = .got n))
  | .sigaction _ _ | .sigvec _ _ | .sigprocmask _ _ | .sigblock _ | .sigsetmask _ | .sigsuspend _ | .sigreturn _
  | .execsigs | .fork _ => inferInstanceAs (Decidable (∀ n, s.pc ≠ .stopped n))

instance (t : Except Stop Sys) (op : Op) : Decidable (Allowed t op) :=
  match t with
  | .error _ => isTrue fun _ h => by cases h
  | .ok s => decidable_of_iff (s.Allowed op) ⟨fun h _ he => Except.ok.inj he ▸ h, fun h => h s rfl⟩

/-- In every run from boot the sets stay consistent until the process exits, and `issignal` would end
in each state and return what it may. -/
theorem sig_runs (ops : List Op) (h : Along step Allowed (.ok ⟨Proc.boot, .run⟩) ops) :
    ∀ t ∈ states step (.ok ⟨Proc.boot, .run⟩) ops, t = .error .exited ∨ ∃ s, t = .ok s ∧ s.proc.Consistent ∧
      ∃ p r, s.entry.issignal = some (p, r) ∧ p.Consistent ∧ ∀ n, r = .ret n → Returns p n := by
  intro t ht
  have hgoes : ∀ (t : Except Stop Sys) op, Sys.Goes t → Allowed t op → Sys.Goes (step t op) := by
    rintro _ op (rfl | ⟨s, rfl, hs⟩) hal
    · exact Or.inl rfl
    · exact hs.step (hal s rfl)
  have hboot : Sys.Goes (.ok ⟨Proc.boot, .run⟩) := Sys.Inv.run Proc.Inv.boot
  refine (states_of_along hgoes hboot h t ht).imp_right ?_
  rintro ⟨s, rfl, hs⟩
  obtain ⟨⟨p, r⟩, he, hp, hret⟩ := hs.entry.issignal
  exact ⟨s, rfl, hs.proc.sets, p, r, he, hp.sets, hret⟩

/-- Process 0 forks; the child catches a signal, stops and goes on, and is killed. -/
theorem sig_runs_child :
    let t := final step (.ok ⟨Proc.boot, .run⟩) [.fork 7, .sigaction 15 (some ⟨4096, 0xffffffff, 0⟩), .psignal 18, .issignal,
      .psignal 19, .issignal, .psignal 15, .issignal, .postsig true, .psignal 15, .sigprocmask 3 0, .execsigs, .issignal,
      .postsig true]
    t = .error .exited ∨ ∃ s, t = .ok s ∧ s.proc.Consistent ∧
      ∃ p r, s.entry.issignal = some (p, r) ∧ p.Consistent ∧ ∀ n, r = .ret n → Returns p n :=
  sig_runs _ (by decide +kernel) _ (final_mem_states _ _ _)

end BsdKernel.Sig
