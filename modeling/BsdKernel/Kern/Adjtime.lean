import BsdKernel.Kern.Time
/-!
# The time of day and its correction

`adjtime` of `kern/kern_time.c` and the last part of `hardclock` in
`kern/kern_clock.c`, which moves the time of day on by a tick and applies the
correction. A `long` and an `int` have 32 bits and wrap. `tick` and `tickadj`
are variables whose definitions are not part of the source tree: `Rates` is
what the code relies on, that a tick is a fraction of a second and that ten
times the skew is a fraction of a tick.

`adjtime_corrects`: the correction is applied exactly if and only if it fits a
`long` as microseconds and the seconds do not run out before it is done.
-/

namespace BsdKernel.Time

open BsdKernel.Lib

/-! ## The code -/

/-- `time`, `mono_time`, `timedelta` and `tickdelta`. -/
structure TimeOfDay where
  time : Timeval
  mono_time : Timeval
  timedelta : Int
  tickdelta : Int
  deriving DecidableEq, Repr

/-- `bigadj`. -/
def bigadj : Int := 1000000

/-- `BUMPTIME`. -/
def bumptime (t : Timeval) (usec : Int) : Timeval :=
  let us := wrap32 (t.tv_usec + usec)
  if us ≥ 1000000 then ⟨wrap32 (t.tv_sec + 1), wrap32 (us - 1000000)⟩ else ⟨t.tv_sec, us⟩

/-- The time update of `hardclock`. -/
def hardclock (tick : Int) (s : TimeOfDay) : TimeOfDay :=
  let delta := if s.timedelta = 0 then tick else wrap32 (tick + s.tickdelta)
  let timedelta := if s.timedelta = 0 then s.timedelta else wrap32 (s.timedelta - s.tickdelta)
  { s with time := bumptime s.time delta, mono_time := bumptime s.mono_time delta, timedelta := timedelta }

/-- The total correction and the per-tick delta of `adjtime` for `atv`. -/
def correction (tickadj : Int) (atv : Timeval) : Int × Int :=
  let ndelta := wrap32 (wrap32 (atv.tv_sec * 1000000) + atv.tv_usec)
  let ntickdelta := if ndelta > bigadj then wrap32 (10 * tickadj) else tickadj
  let ndelta := if ndelta.tmod ntickdelta ≠ 0 then wrap32 (ndelta.tdiv ntickdelta * ntickdelta) else ndelta
  (ndelta, if ndelta < 0 then wrap32 (-ntickdelta) else ntickdelta)

/-- `adjtime`: `suser` is the outcome of the check of the caller and `copyin` the
`timeval` read, if it can be read. The result is `olddelta`. -/
def adjtime (tickadj : Int) (suser : Bool) (copyin : Option Timeval) (s : TimeOfDay) :
    Except Errno (TimeOfDay × Timeval) :=
  if suser = false then .error .EPERM
  else match copyin with
    | none => .error .EFAULT
    | some atv =>
      .ok ({ s with timedelta := (correction tickadj atv).1, tickdelta := (correction tickadj atv).2 },
        ⟨s.timedelta.tdiv 1000000, s.timedelta.tmod 1000000⟩)

/-! ## A tick -/

/-- What the code relies on: a tick is less than a second also when it is
stretched, and stays positive when it is shortened. -/
structure Rates (tick tickadj : Int) : Prop where
  skew_pos : 0 < tickadj
  skew_lt : 10 * tickadj < tick
  second : tick + 10 * tickadj < 1000000

/-- A `timeval` of the kernel: in normal form, with the seconds a `long`. -/
structure Clock32 (t : Timeval) : Prop where
  normalized : Normalized t
  sec : Fits32 t.tv_sec

/-- The clock moves on by `usec`, or back when the seconds run out. -/
theorem bumptime_spec {t : Timeval} {usec : Int} (ht : Clock32 t) (h0 : 0 < usec) (h1 : usec < 1000000) :
    Clock32 (bumptime t usec) ∧
      if usecs t + usec < 2 ^ 31 * 1000000 then usecs (bumptime t usec) = usecs t + usec
      else usecs (bumptime t usec) < usecs t := by
  obtain ⟨⟨hu0, hu1⟩, hs0, hs1⟩ := ht
  have hus : wrap32 (t.tv_usec + usec) = t.tv_usec + usec := wrap32_of_fits ⟨by omega, by omega⟩
  unfold bumptime
  simp only [hus]
  by_cases hcarry : t.tv_usec + usec ≥ 1000000
  · have hrest : wrap32 (t.tv_usec + usec - 1000000) = t.tv_usec + usec - 1000000 :=
      wrap32_of_fits ⟨by omega, by omega⟩
    rw [if_pos hcarry, hrest]
    refine ⟨⟨⟨by simp only; omega, by simp only; omega⟩, fits32_wrap32 _⟩, ?_⟩
    unfold usecs wrap32
    simp only
    split_ifs <;> omega
  · rw [if_neg hcarry]
    refine ⟨⟨⟨by simp only; omega, by simp only; omega⟩, hs0, hs1⟩, ?_⟩
    unfold usecs
    simp only
    split_ifs <;> omega

/-- The state after `n` ticks. -/
def ticked (tick : Int) (n : Nat) (s : TimeOfDay) : TimeOfDay := (hardclock tick)^[n] s

theorem ticked_succ (tick : Int) (n : Nat) (s : TimeOfDay) :
    ticked tick (n + 1) s = hardclock tick (ticked tick n s) :=
  Function.iterate_succ_apply' (hardclock tick) n s

/-- `m` per-tick deltas are left to apply, each less than a tick. -/
structure Left (tick delta : Int) (m : Nat) (s : TimeOfDay) : Prop where
  timedelta : s.timedelta = m * delta
  tickdelta : s.tickdelta = delta
  fits : Fits32 s.timedelta
  ne_zero : delta ≠ 0
  tick_pos : 0 < tick
  tick_lt : tick < 1000000
  pos : 0 < tick + delta
  lt : tick + delta < 1000000

variable {tick tickadj delta : Int} {m : Nat} {s : TimeOfDay}

theorem Left.step (h : Left tick delta (m + 1) s) :
    Left tick delta m (hardclock tick s) ∧ (hardclock tick s).time = bumptime s.time (tick + delta) := by
  have hleft : s.timedelta = m * delta + delta := by
    rw [h.timedelta]
    push_cast
    ring
  have hne : s.timedelta ≠ 0 := by
    rw [h.timedelta]
    exact mul_ne_zero (by exact_mod_cast Nat.succ_ne_zero m) h.ne_zero
  obtain ⟨hf0, hf1⟩ := h.fits
  have hpos := h.pos
  have hlt := h.lt
  have hfit : Fits32 (m * delta) := by
    have hm : (0 : Int) ≤ m := Int.natCast_nonneg m
    rcases lt_or_gt_of_ne h.ne_zero with hd | hd
    · have := Int.mul_nonpos_of_nonneg_of_nonpos hm (le_of_lt hd)
      constructor <;> omega
    · have := Int.mul_nonneg hm (le_of_lt hd)
      constructor <;> omega
  have hdelta : wrap32 (tick + s.tickdelta) = tick + delta := by
    rw [h.tickdelta]
    exact wrap32_of_fits ⟨by omega, by omega⟩
  have hrest : wrap32 (s.timedelta - s.tickdelta) = m * delta := by
    rw [hleft, h.tickdelta, Int.add_sub_cancel, wrap32_of_fits hfit]
  unfold hardclock
  simp only [hne, if_false, hdelta, hrest]
  exact ⟨{ h with timedelta := rfl, fits := hfit }, trivial⟩

theorem Left.done (h : Left tick delta 0 s) :
    Left tick delta 0 (hardclock tick s) ∧ (hardclock tick s).time = bumptime s.time tick := by
  have hz : s.timedelta = 0 := by simpa using h.timedelta
  unfold hardclock
  simp only [hz, if_true]
  exact ⟨{ h with timedelta := by simp, fits := hz ▸ h.fits }, trivial⟩

/-- After `n` ticks `n` of the deltas are applied, as long as there are any. -/
theorem Left.ticked (h : Left tick delta m s) (n : Nat) : Left tick delta (m - n) (ticked tick n s) := by
  induction n with
  | zero => exact h
  | succ n ih =>
    rw [ticked_succ]
    cases hk : m - n with
    | zero =>
      rw [hk] at ih
      rw [show m - (n + 1) = 0 by omega]
      exact ih.done.1
    | succ k =>
      rw [hk] at ih
      rw [show m - (n + 1) = k by omega]
      exact ih.step.1

/-- The ticks that apply a delta: each moves the clock by the stretched tick,
unless the seconds run out. -/
theorem Left.tick_spec (h : Left tick delta m s) {n : Nat} (hn : n < m)
    (hc : Clock32 (Time.ticked tick n s).time) :
    Clock32 (Time.ticked tick (n + 1) s).time ∧
      if usecs (Time.ticked tick n s).time + (tick + delta) < 2 ^ 31 * 1000000 then
        usecs (Time.ticked tick (n + 1) s).time = usecs (Time.ticked tick n s).time + (tick + delta)
      else usecs (Time.ticked tick (n + 1) s).time < usecs (Time.ticked tick n s).time := by
  have hl := h.ticked n
  rw [show m - n = (m - n - 1) + 1 by omega] at hl
  rw [ticked_succ, hl.step.2]
  exact bumptime_spec hc h.pos h.lt

/-- Before the seconds run out, `n` ticks that each apply a delta add up. -/
theorem Left.time (h : Left tick delta m s) (ht : Clock32 s.time)
    (hroom : usecs s.time + m * (tick + delta) < 2 ^ 31 * 1000000) {n : Nat} (hn : n ≤ m) :
    Clock32 (Time.ticked tick n s).time ∧
      usecs (Time.ticked tick n s).time = usecs s.time + n * (tick + delta) := by
  induction n with
  | zero => exact ⟨ht, by simp [Time.ticked]⟩
  | succ n ih =>
    obtain ⟨hc, hu⟩ := ih (by omega)
    obtain ⟨hc', hstep⟩ := h.tick_spec (by omega) hc
    have hle : ((n + 1 : Nat) : Int) * (tick + delta) ≤ m * (tick + delta) :=
      Int.mul_le_mul_of_nonneg_right (by exact_mod_cast hn) (le_of_lt h.pos)
    have hsum : usecs (Time.ticked tick n s).time + (tick + delta) =
        usecs s.time + ((n + 1 : Nat) : Int) * (tick + delta) := by
      rw [hu]
      push_cast
      ring
    rw [if_pos (by omega), hsum] at hstep
    exact ⟨hc', hstep⟩

/-- A clock that never went back has not run out of seconds. -/
theorem Left.time_of_increasing (h : Left tick delta m s) (ht : Clock32 s.time) {n : Nat} (hn : n ≤ m)
    (hinc : ∀ k < n, usecs (Time.ticked tick k s).time < usecs (Time.ticked tick (k + 1) s).time) :
    Clock32 (Time.ticked tick n s).time ∧
      usecs (Time.ticked tick n s).time = usecs s.time + n * (tick + delta) := by
  induction n with
  | zero => exact ⟨ht, by simp [Time.ticked]⟩
  | succ n ih =>
    obtain ⟨hc, hu⟩ := ih (by omega) fun k hk => hinc k (by omega)
    obtain ⟨hc', hstep⟩ := h.tick_spec (by omega) hc
    have hlt := hinc n (by omega)
    split_ifs at hstep with hroom
    · refine ⟨hc', hstep.trans ?_⟩
      rw [hu]
      push_cast
      ring
    · omega

/-! ## The whole correction -/

/-- `x` is nonzero and on the way from `d` to zero. -/
def Toward (d x : Int) : Prop := (0 < x ∧ x ≤ d) ∨ (d ≤ x ∧ x < 0)

/-- The correction `d` is applied exactly: after some number of ticks
`timedelta` is zero and stays so, and the clock has moved by that many ticks and
`d`; until then `timedelta` keeps its sign and each tick moves the clock on. -/
def Adjusts (tick d : Int) (s : TimeOfDay) : Prop :=
  ∃ n : Nat, (∀ k ≥ n, (ticked tick k s).timedelta = 0) ∧
    usecs (ticked tick n s).time = usecs s.time + n * tick + d ∧
    ∀ k < n, Toward d (ticked tick k s).timedelta ∧ usecs (ticked tick k s).time < usecs (ticked tick (k + 1) s).time

theorem toward_multiple {k : Nat} (hk : 0 < k) (hkm : k ≤ m) (hd : delta ≠ 0) : Toward (m * delta) (k * delta) := by
  have hk' : (0 : Int) < k := by exact_mod_cast hk
  have hkm' : (k : Int) ≤ m := by exact_mod_cast hkm
  rcases lt_or_gt_of_ne hd with hneg | hpos
  · exact .inr ⟨Int.mul_le_mul_of_nonpos_right hkm' (le_of_lt hneg), Int.mul_neg_of_pos_of_neg hk' hneg⟩
  · exact .inl ⟨Int.mul_pos hk' hpos, Int.mul_le_mul_of_nonneg_right hkm' (le_of_lt hpos)⟩

/-- What `hardclock` applies is the number of deltas left, and it takes a clock
with room for it. -/
theorem Left.adjusts_iff (h : Left tick delta m s) (ht : Clock32 s.time) (d : Int) :
    Adjusts tick d s ↔ d = m * delta ∧ usecs s.time + m * tick + d < 2 ^ 31 * 1000000 := by
  have hsum : (m : Int) * (tick + delta) = m * tick + m * delta := by ring
  constructor
  · rintro ⟨n, hzero, htime, hrun⟩
    have hnm : n = m := by
      rcases lt_trichotomy n m with hlt | heq | hgt
      · -- Deltas are left, so `timedelta` is not zero.
        have hz := hzero n (le_refl n)
        rw [(h.ticked n).timedelta] at hz
        rcases mul_eq_zero.1 hz with hz | hz
        · omega
        · exact absurd hz h.ne_zero
      · exact heq
      · have hz := (h.ticked m).timedelta
        have := (hrun m hgt).1
        simp only [Nat.sub_self, Nat.cast_zero, Int.zero_mul] at hz
        rw [hz] at this
        exact absurd this (by simp [Toward])
    subst hnm
    obtain ⟨hc, hu⟩ := h.time_of_increasing ht (le_refl n) fun k hk => (hrun k hk).2
    obtain ⟨⟨-, hlt⟩, -, hsec⟩ := hc
    unfold usecs at *
    constructor <;> omega
  · rintro ⟨rfl, hroom⟩
    refine ⟨m, fun k hk => ?_, ?_, fun k hk => ⟨?_, ?_⟩⟩
    · rw [(h.ticked k).timedelta, Nat.sub_eq_zero_of_le hk]
      simp
    · rw [(h.time ht (by omega) (le_refl m)).2]
      omega
    · rw [(h.ticked k).timedelta]
      exact toward_multiple (by omega) (by omega) h.ne_zero
    · rw [(h.time ht (by omega) (le_of_lt hk)).2, (h.time ht (by omega) (n := k + 1) hk).2]
      have hpos := h.pos
      push_cast
      rw [Int.add_mul]
      omega

/-- The skew a correction of `delta` microseconds is applied at. -/
def skew (tickadj delta : Int) : Int := if delta > bigadj then 10 * tickadj else tickadj

theorem Rates.skew_bounds (hr : Rates tick tickadj) (x : Int) :
    0 < skew tickadj x ∧ skew tickadj x ≤ 10 * tickadj := by
  have := hr.skew_pos
  unfold skew
  split_ifs <;> omega

/-- What `adjtime` computes from `x`, the microseconds of the `timeval` as a `long`. -/
theorem correction_eq (hr : Rates tick tickadj) (atv : Timeval) {x : Int} (hx : x = wrap32 (usecs atv)) :
    correction tickadj atv =
      (truncTo (skew tickadj x) x, if truncTo (skew tickadj x) x < 0 then -skew tickadj x else skew tickadj x) := by
  obtain ⟨h0, h1, h2⟩ := hr
  have hskew : (if x > bigadj then wrap32 (10 * tickadj) else tickadj) = skew tickadj x := by
    rw [wrap32_of_fits ⟨by omega, by omega⟩]
    rfl
  have hbounds := Rates.skew_bounds ⟨h0, h1, h2⟩ x
  have hround : (if x.tmod (skew tickadj x) ≠ 0 then wrap32 (x.tdiv (skew tickadj x) * skew tickadj x) else x) =
      truncTo (skew tickadj x) x := by
    split_ifs with hmod
    · exact wrap32_of_fits (fits32_truncTo hbounds.1 (hx ▸ fits32_wrap32 _))
    · exact (truncTo_eq_of_tmod (not_not.1 hmod)).symm
  have hneg : wrap32 (-skew tickadj x) = -skew tickadj x := wrap32_of_fits ⟨by omega, by omega⟩
  rw [correction, wrap32_wrap32_add, ← usecs, ← hx]
  simp only [hskew, hround, hneg]

/-- The number of ticks a correction of `x` microseconds takes. -/
def rounds (tickadj x : Int) : Nat := (x.tdiv (skew tickadj x)).natAbs

/-- The state `adjtime` leaves has `rounds` deltas to apply. -/
theorem adjtime_left (hr : Rates tick tickadj) (atv : Timeval) (s : TimeOfDay) {x : Int}
    (hx : x = wrap32 (usecs atv)) :
    ∃ delta, Left tick delta (rounds tickadj x)
        { s with timedelta := (correction tickadj atv).1, tickdelta := (correction tickadj atv).2 } ∧
      rounds tickadj x * delta = truncTo (skew tickadj x) x := by
  have hbounds := hr.skew_bounds x
  have hfits : Fits32 (truncTo (skew tickadj x) x) := fits32_truncTo hbounds.1 (hx ▸ fits32_wrap32 _)
  obtain ⟨h0, h1, h2⟩ := hr
  have hprod : ((rounds tickadj x : Nat) : Int) *
      (if truncTo (skew tickadj x) x < 0 then -skew tickadj x else skew tickadj x) = truncTo (skew tickadj x) x := by
    unfold rounds truncTo
    split_ifs with hneg
    · have hq : x.tdiv (skew tickadj x) < 0 := by
        by_contra hq
        exact absurd hneg (not_lt.2 (Int.mul_nonneg (not_lt.1 hq) (le_of_lt hbounds.1)))
      rw [Int.ofNat_natAbs_of_nonpos (le_of_lt hq), Int.neg_mul_neg]
    · have hq : 0 ≤ x.tdiv (skew tickadj x) := by
        by_contra hq
        exact hneg (Int.mul_neg_of_neg_of_pos (not_le.1 hq) hbounds.1)
      rw [Int.natAbs_of_nonneg hq]
  rw [correction_eq ⟨h0, h1, h2⟩ atv hx]
  refine ⟨_, ⟨hprod.symm, rfl, hfits, ?_, by omega, by omega, ?_, ?_⟩, hprod⟩
  all_goals split_ifs <;> omega

/-- The corrections that are applied exactly: those that fit a `long`, on a clock
whose seconds last until the end. -/
theorem adjusts_adjtime (hr : Rates tick tickadj) {s : TimeOfDay} (ht : Clock32 s.time) (atv : Timeval) :
    Adjusts tick (truncTo (skew tickadj (usecs atv)) (usecs atv))
        { s with timedelta := (correction tickadj atv).1, tickdelta := (correction tickadj atv).2 } ↔
      Fits32 (usecs atv) ∧
        usecs s.time + rounds tickadj (usecs atv) * tick + truncTo (skew tickadj (usecs atv)) (usecs atv) <
          2 ^ 31 * 1000000 := by
  obtain ⟨delta, hleft, hprod⟩ := adjtime_left hr atv s rfl
  rw [hleft.adjusts_iff ht, hprod]
  by_cases hfit : Fits32 (usecs atv)
  · rw [wrap32_of_fits hfit]
    simp [hfit]
  · -- A whole turn of a `long` is lost, which no rounding makes up for.
    have hb := hr.skew_bounds (usecs atv)
    have hb' := hr.skew_bounds (wrap32 (usecs atv))
    have hn := truncTo_near (x := usecs atv) hb.1
    have hn' := truncTo_near (x := wrap32 (usecs atv)) hb'.1
    have hturn := le_abs_wrap32_sub hfit
    obtain ⟨h0, h1, h2⟩ := hr
    constructor
    · rintro ⟨heq, -⟩
      omega
    · exact fun h => absurd h.1 hfit

/-- A call of the superuser, on any state of the clock. -/
theorem adjtime_corrects (hr : Rates tick tickadj) {s : TimeOfDay} (ht : Clock32 s.time) (atv : Timeval) :
    ∃ s' olddelta, adjtime tickadj true (some atv) s = .ok (s', olddelta) ∧
      (Adjusts tick (truncTo (skew tickadj (usecs atv)) (usecs atv)) s' ↔
        Fits32 (usecs atv) ∧
          usecs s.time + rounds tickadj (usecs atv) * tick + truncTo (skew tickadj (usecs atv)) (usecs atv) <
            2 ^ 31 * 1000000) :=
  ⟨_, _, rfl, adjusts_adjtime hr ht atv⟩

/-- The rates of a 100 Hz clock that may be skewed by 5 microseconds a tick. -/
theorem rates_100 : Rates 10000 5 := ⟨by decide, by decide, by decide⟩

/-- Half a second back. -/
theorem half_second_back :
    Adjusts 10000 (-500000) ⟨⟨1000, 0⟩, ⟨0, 0⟩, -500000, -5⟩ := by
  obtain ⟨s', old, hok, hiff⟩ := adjtime_corrects rates_100 (s := ⟨⟨1000, 0⟩, ⟨0, 0⟩, 0, 0⟩)
    ⟨by decide, by decide⟩ ⟨-1, 500000⟩
  obtain ⟨rfl, -⟩ := Prod.mk.inj (Except.ok.inj hok)
  exact hiff.2 (by decide)

/-- 4295 seconds are 4295000000 microseconds: `adjtime` sees 32704 and corrects by 32700. -/
theorem adjtime_wraps :
    ∃ s', adjtime 5 true (some ⟨4295, 0⟩) ⟨⟨1000, 0⟩, ⟨0, 0⟩, 0, 0⟩ = .ok (s', ⟨0, 0⟩) ∧ s'.timedelta = 32700 ∧
      ¬Adjusts 10000 (truncTo (skew 5 (usecs ⟨4295, 0⟩)) (usecs ⟨4295, 0⟩)) s' := by
  refine ⟨_, rfl, by decide, fun h => ?_⟩
  have ht : Clock32 ⟨1000, 0⟩ := ⟨by decide, by decide⟩
  have := (adjusts_adjtime rates_100 (s := ⟨⟨1000, 0⟩, ⟨0, 0⟩, 0, 0⟩) ht ⟨4295, 0⟩).1 h
  exact absurd this.1 (by decide)

/-! ## Runs of ticks and corrections -/

inductive Event
  | tick
  | adjtime (suser : Bool) (copyin : Option Timeval)

def event (tick tickadj : Int) (s : TimeOfDay) : Event → TimeOfDay
  | .tick => hardclock tick s
  | .adjtime suser copyin =>
    match adjtime tickadj suser copyin s with
    | .ok r => r.1
    | .error _ => s

/-- A clock in normal form whose correction, if any, is applied with at most the greatest skew. -/
structure Running (tick tickadj : Int) (s : TimeOfDay) : Prop where
  time : Clock32 s.time
  mono : Clock32 s.mono_time
  correction : s.timedelta = 0 ∨ ∃ delta m, Left tick delta m s ∧ -(10 * tickadj) ≤ delta ∧ delta ≤ 10 * tickadj

theorem Running.step (hr : Rates tick tickadj) (h : Running tick tickadj s) :
    Running tick tickadj (hardclock tick s) ∧ ∃ usec, tick - 10 * tickadj ≤ usec ∧ usec ≤ tick + 10 * tickadj ∧
      (hardclock tick s).time = bumptime s.time usec ∧ (hardclock tick s).mono_time = bumptime s.mono_time usec := by
  obtain ⟨h0, h1, h2⟩ := hr
  have hmoved : ∀ usec, tick - 10 * tickadj ≤ usec → usec ≤ tick + 10 * tickadj →
      Clock32 (bumptime s.time usec) ∧ Clock32 (bumptime s.mono_time usec) := fun usec hlo hhi =>
    ⟨(bumptime_spec h.time (by omega) (by omega)).1, (bumptime_spec h.mono (by omega) (by omega)).1⟩
  by_cases hz : s.timedelta = 0
  · have htime := hmoved tick (by omega) (by omega)
    simp only [hardclock, hz, if_true]
    exact ⟨⟨htime.1, htime.2, .inl rfl⟩, tick, by omega, by omega, rfl, rfl⟩
  · obtain ⟨delta, m, hl, hlo, hhi⟩ := h.correction.resolve_left hz
    cases m with
    | zero => exact absurd (by simpa using hl.timedelta) hz
    | succ m =>
      obtain ⟨hl', -⟩ := hl.step
      have hdelta : wrap32 (tick + s.tickdelta) = tick + delta := by
        rw [hl.tickdelta]
        exact wrap32_of_fits ⟨by omega, by omega⟩
      have htime := hmoved (tick + delta) (by omega) (by omega)
      simp only [hardclock, hz, if_false, hdelta] at hl' ⊢
      exact ⟨⟨htime.1, htime.2, .inr ⟨delta, m, hl', hlo, hhi⟩⟩, tick + delta, by omega, by omega, rfl, rfl⟩

theorem Running.event (hr : Rates tick tickadj) (h : Running tick tickadj s) (e : Event) :
    Running tick tickadj (event tick tickadj s e) := by
  cases e with
  | tick => exact (h.step hr).1
  | adjtime suser copyin =>
    cases suser with
    | false => exact h
    | true =>
      cases copyin with
      | none => exact h
      | some atv =>
        refine ⟨h.time, h.mono, .inr ?_⟩
        obtain ⟨delta, hl, -⟩ := adjtime_left hr atv s rfl
        refine ⟨delta, _, hl, ?_⟩
        have hb := hr.skew_bounds (wrap32 (usecs atv))
        rw [← hl.tickdelta, correction_eq hr atv rfl]
        dsimp only
        split_ifs <;> omega

/-- Whatever corrections are asked for, also those that wrap, both clocks stay in normal form, and each tick moves
them on by the same time, a tick with at most the greatest skew: a clock goes back only when its seconds run out. -/
theorem clock_runs (hr : Rates tick tickadj) (ht : Clock32 s.time) (hm : Clock32 s.mono_time) (h0 : s.timedelta = 0)
    (es : List Event) : ∀ t ∈ states (event tick tickadj) s es, Clock32 t.time ∧ Clock32 t.mono_time ∧
      ∃ usec, tick - 10 * tickadj ≤ usec ∧ usec ≤ tick + 10 * tickadj ∧
        (hardclock tick t).time = bumptime t.time usec ∧ (hardclock tick t).mono_time = bumptime t.mono_time usec ∧
        (usecs t.time + usec < 2 ^ 31 * 1000000 → usecs (hardclock tick t).time = usecs t.time + usec) := by
  intro t hmem
  have h : Running tick tickadj t := states_of_along (fun s e hs _ => hs.event hr e) ⟨ht, hm, .inl h0⟩
    (along_of_forall (event tick tickadj) (fun _ _ => trivial) s es) t hmem
  obtain ⟨-, usec, hlo, hhi, htime, hmono⟩ := h.step hr
  refine ⟨h.time, h.mono, usec, hlo, hhi, htime, hmono, fun hroom => ?_⟩
  obtain ⟨h0, h1, h2⟩ := hr
  have hspec := (bumptime_spec h.time (show 0 < usec by omega) (by omega)).2
  rwa [if_pos hroom, ← htime] at hspec

theorem clock_runs_wrapped : Clock32 (final (event 10000 5) ⟨⟨1000, 0⟩, ⟨0, 0⟩, 0, 0⟩
    [.tick, .adjtime true (some ⟨4295, 0⟩), .tick]).time :=
  (clock_runs rates_100 ⟨by decide, by decide⟩ ⟨by decide, by decide⟩ rfl _ _ (final_mem_states _ _ _)).1

end BsdKernel.Time
