import BsdKernel.Lib.Signed
import BsdKernel.Lib.Trace
/-!
# Interval timers

`itimerfix`, `itimerdecr` and the part of `setitimer` that stores a virtual or
a profiling timer, from `kern/kern_time.c`. `tick` is the variable of that name,
the length of a clock tick in microseconds; the file that defines it is not
part of the source tree, so it is a parameter, less than a second as the
comment on `itimerdecr` asks.

`itimer_runs`: over any number of calls the timer neither leaves its normal
form nor drifts. No field ever leaves an `int` (`Accepted.sec_le`), so the
fields are integers.
-/

namespace BsdKernel.Time

open BsdKernel.Lib

variable {t : Itimerval} {usec : Int}

/-! ## The code -/

/-- `struct timeval`. -/
structure Timeval where
  tv_sec : Int
  tv_usec : Int
  deriving DecidableEq, Repr

/-- `struct itimerval`. -/
structure Itimerval where
  it_interval : Timeval
  it_value : Timeval
  deriving DecidableEq, Repr

/-- The errors of the calls modelled here. -/
inductive Errno
  | EPERM | EFAULT | EINVAL
  deriving DecidableEq, Repr

/-- `timerisset`. -/
def timerisset (tv : Timeval) : Prop := tv.tv_sec ≠ 0 ∨ tv.tv_usec ≠ 0

instance : DecidablePred timerisset := fun tv => inferInstanceAs (Decidable (tv.tv_sec ≠ 0 ∨ tv.tv_usec ≠ 0))

/-- `itimerfix`, with the fixed value where the code writes through `tv`. -/
def itimerfix (tick : Int) (tv : Timeval) : Except Errno Timeval :=
  if tv.tv_sec < 0 ∨ tv.tv_sec > 100000000 ∨ tv.tv_usec < 0 ∨ tv.tv_usec ≥ 1000000 then .error .EINVAL
  else if tv.tv_sec = 0 ∧ tv.tv_usec ≠ 0 ∧ tv.tv_usec < tick then .ok { tv with tv_usec := tick }
  else .ok tv

/-- `setitimer` for `ITIMER_VIRTUAL` and `ITIMER_PROF`: the `p_timer` it stores. -/
def setitimer (tick : Int) (aitv : Itimerval) : Except Errno Itimerval := do
  let value ← itimerfix tick aitv.it_value
  let interval ← itimerfix tick aitv.it_interval
  return ⟨interval, value⟩

/-- `expire:` of `itimerdecr`, with what is left of `usec`. -/
def expire (itp : Itimerval) (usec : Int) : Itimerval :=
  if timerisset itp.it_interval then
    let tv_usec := itp.it_interval.tv_usec - usec
    if tv_usec < 0 then { itp with it_value := ⟨itp.it_interval.tv_sec - 1, tv_usec + 1000000⟩ }
    else { itp with it_value := ⟨itp.it_interval.tv_sec, tv_usec⟩ }
  else { itp with it_value := { itp.it_value with tv_usec := 0 } }

/-- `itp->it_value.tv_usec -= usec` and what follows it. -/
def take (itp : Itimerval) (value : Timeval) (usec : Int) : Itimerval × Int :=
  let itp := { itp with it_value := { value with tv_usec := value.tv_usec - usec } }
  if timerisset itp.it_value then (itp, 1) else (expire itp 0, 0)

/-- `itimerdecr`: the timer it leaves and its result. -/
def itimerdecr (itp : Itimerval) (usec : Int) : Itimerval × Int :=
  if itp.it_value.tv_usec < usec then
    if itp.it_value.tv_sec = 0 then (expire itp (usec - itp.it_value.tv_usec), 0)
    else take itp ⟨itp.it_value.tv_sec - 1, itp.it_value.tv_usec + 1000000⟩ usec
  else take itp itp.it_value usec

/-! ## One call -/

/-- The microseconds of a `timeval`. -/
def usecs (tv : Timeval) : Int := tv.tv_sec * 1000000 + tv.tv_usec

/-- `tv_usec` is a fraction of a second. -/
def Normalized (tv : Timeval) : Prop := 0 ≤ tv.tv_usec ∧ tv.tv_usec < 1000000

instance : DecidablePred Normalized := fun tv => inferInstanceAs (Decidable (0 ≤ tv.tv_usec ∧ tv.tv_usec < 1000000))

theorem timerisset_iff {tv : Timeval} (hn : Normalized tv) (h0 : 0 ≤ tv.tv_sec) : timerisset tv ↔ 0 < usecs tv := by
  unfold timerisset usecs Normalized at *
  omega

/-- What `setitimer` stores, and what the calls of `itimerdecr` keep. -/
structure Accepted (tick : Int) (t : Itimerval) : Prop where
  normalized : Normalized t.it_value
  nonneg : 0 ≤ t.it_value.tv_sec
  sec_le : t.it_value.tv_sec ≤ 100000000
  interval_normalized : Normalized t.it_interval
  interval_nonneg : 0 ≤ t.it_interval.tv_sec
  interval_sec_le : t.it_interval.tv_sec ≤ 100000000
  interval_tick : timerisset t.it_interval → tick ≤ usecs t.it_interval

variable {tick : Int}

theorem itimerfix_ok (h0 : 0 < tick) (h1 : tick < 1000000) {tv tv' : Timeval} (h : itimerfix tick tv = .ok tv') :
    Normalized tv' ∧ 0 ≤ tv'.tv_sec ∧ tv'.tv_sec ≤ 100000000 ∧ (timerisset tv' → tick ≤ usecs tv') := by
  unfold itimerfix at h
  split_ifs at h with hr hs
  · obtain rfl := Except.ok.inj h
    simp only [Normalized, usecs]
    omega
  · obtain rfl := Except.ok.inj h
    simp only [Normalized, usecs, timerisset]
    omega

theorem setitimer_accepted (h0 : 0 < tick) (h1 : tick < 1000000) {aitv : Itimerval} (h : setitimer tick aitv = .ok t) :
    Accepted tick t := by
  unfold setitimer at h
  cases hv : itimerfix tick aitv.it_value with
  | error e => simp [hv, bind, Except.bind] at h
  | ok value =>
    cases hi : itimerfix tick aitv.it_interval with
    | error e => simp [hv, hi, bind, Except.bind] at h
    | ok interval =>
      simp only [hv, hi, bind, Except.bind, pure, Except.pure, Except.ok.injEq] at h
      subst h
      obtain ⟨n, s0, s1, -⟩ := itimerfix_ok h0 h1 hv
      obtain ⟨ni, si0, si1, hi⟩ := itimerfix_ok h0 h1 hi
      exact ⟨n, s0, s1, ni, si0, si1, hi⟩

/-- The reload: the interval less the overshoot, or nothing for a one-shot timer. -/
theorem expire_spec (ha : Accepted tick t) (hsec : t.it_value.tv_sec = 0) (h0 : 0 ≤ usec) (h1 : usec ≤ tick)
    (ht : tick < 1000000) :
    Accepted tick (expire t usec) ∧ (expire t usec).it_interval = t.it_interval ∧
      usecs (expire t usec).it_value = if timerisset t.it_interval then usecs t.it_interval - usec else 0 := by
  obtain ⟨hn, hs0, hs1, hin, hi0, hi1, hit⟩ := ha
  unfold expire
  simp only
  by_cases hset : timerisset t.it_interval
  · have htick := hit hset
    rw [if_pos hset, if_pos hset]
    split_ifs with hneg
    · -- The overshoot is more than the microseconds of the interval: borrow a second.
      refine ⟨⟨?_, ?_, ?_, hin, hi0, hi1, hit⟩, rfl, ?_⟩ <;>
        · simp only [Normalized, usecs] at *
          omega
    · refine ⟨⟨?_, hi0, hi1, hin, hi0, hi1, hit⟩, rfl, ?_⟩ <;>
        · simp only [Normalized, usecs] at *
          omega
  · rw [if_neg hset, if_neg hset]
    refine ⟨⟨by simp [Normalized], hs0, hs1, hin, hi0, hi1, hit⟩, rfl, ?_⟩
    simp [usecs, hsec]

/-- What a call leaves of a timer whose value was `value`: `usec` goes off the
value, or the timer expires and the overshoot goes off the interval. -/
structure Decremented (tick : Int) (t : Itimerval) (value usec : Int) (r : Itimerval × Int) : Prop where
  accepted : Accepted tick r.1
  interval : r.1.it_interval = t.it_interval
  running : usec < value → r.2 = 1 ∧ usecs r.1.it_value = value - usec
  expired : value ≤ usec → r.2 = 0 ∧
    usecs r.1.it_value = if timerisset t.it_interval then usecs t.it_interval + value - usec else 0

/-- The microseconds come off a value that holds enough of them; the timer
expires if nothing is left. -/
theorem take_spec {v : Timeval} (ha : Accepted tick t) (hs0 : 0 ≤ v.tv_sec) (hs1 : v.tv_sec ≤ 100000000)
    (hu0 : usec ≤ v.tv_usec) (hu1 : v.tv_usec < 1000000 + usec) (h0 : 0 < tick) (ht : tick < 1000000) :
    Decremented tick t (usecs v) usec (take t v usec) := by
  have hn : Normalized { v with tv_usec := v.tv_usec - usec } := by
    simp only [Normalized]
    omega
  have ha' : Accepted tick { t with it_value := { v with tv_usec := v.tv_usec - usec } } :=
    { ha with normalized := hn, nonneg := hs0, sec_le := hs1 }
  have htotal : usecs { v with tv_usec := v.tv_usec - usec } = usecs v - usec := by
    simp only [usecs]
    omega
  have hset := timerisset_iff hn hs0
  rw [htotal] at hset
  unfold take
  simp only
  by_cases hleft : 0 < usecs v - usec
  · rw [if_pos (hset.2 hleft)]
    exact ⟨ha', rfl, fun _ => ⟨rfl, htotal⟩, fun h => by omega⟩
  · rw [if_neg (fun h => hleft (hset.1 h))]
    have hzero : v.tv_sec = 0 ∧ usecs v = usec := by
      unfold usecs at *
      omega
    obtain ⟨h, hi, hv⟩ := expire_spec ha' hzero.1 (le_refl 0) (le_of_lt h0) ht
    refine ⟨h, hi, fun h => by omega, fun _ => ⟨rfl, hv.trans ?_⟩⟩
    simp only [hzero.2]
    split_ifs <;> omega

/-- One call with the timer set. -/
theorem itimerdecr_spec (ha : Accepted tick t) (h0 : 0 < usec) (h1 : usec ≤ tick) (ht : tick < 1000000) :
    Decremented tick t (usecs t.it_value) usec (itimerdecr t usec) := by
  obtain ⟨hu0, hu1⟩ := ha.normalized
  have hs0 := ha.nonneg
  have hs1 := ha.sec_le
  unfold itimerdecr
  split_ifs with hlt hsec
  · -- Already in the next interval.
    obtain ⟨h, hi, hv⟩ := expire_spec ha hsec (Int.le_of_lt (Int.sub_pos_of_lt hlt)) (by omega) ht
    have hval : usecs t.it_value = t.it_value.tv_usec := by simp [usecs, hsec]
    refine ⟨h, hi, fun h => by omega, fun _ => ⟨rfl, hv.trans ?_⟩⟩
    split_ifs <;> omega
  · -- Borrow a second.
    have hval : usecs ⟨t.it_value.tv_sec - 1, t.it_value.tv_usec + 1000000⟩ = usecs t.it_value := by
      simp only [usecs]
      omega
    rw [← hval]
    apply take_spec ha <;> (try simp only) <;> omega
  · apply take_spec ha <;> omega

/-! ## Runs -/

/-- The timer after a call. -/
def decr (t : Itimerval) (usec : Int) : Itimerval := (itimerdecr t usec).1

/-- A call the kernel makes: the value is set, and no more than a tick is taken. -/
def Call (tick : Int) (t : Itimerval) (usec : Int) : Prop := timerisset t.it_value ∧ 0 < usec ∧ usec ≤ tick

instance (tick : Int) (t : Itimerval) (usec : Int) : Decidable (Call tick t usec) :=
  inferInstanceAs (Decidable (timerisset t.it_value ∧ 0 < usec ∧ usec ≤ tick))

/-- The number of calls of a run that return 0. -/
def expirations (t : Itimerval) : List Int → Nat
  | [] => 0
  | usec :: calls => (if (itimerdecr t usec).2 = 0 then 1 else 0) + expirations (decr t usec) calls

/-- Conservation of time for a timer that reloads. -/
theorem reload_conserves (ht : tick < 1000000) (calls : List Int) (t : Itimerval) (ha : Accepted tick t)
    (hset : timerisset t.it_interval) (hrun : Along decr (Call tick) t calls) :
    usecs t.it_value + expirations t calls * usecs t.it_interval - calls.sum =
      usecs (final decr t calls).it_value := by
  induction calls generalizing t with
  | nil => simp [expirations, final]
  | cons usec calls ih =>
    obtain ⟨⟨-, h0, h1⟩, hrest⟩ := hrun
    obtain ⟨ha', hi, hlt, hge⟩ := itimerdecr_spec ha h0 h1 ht
    have h := ih (decr t usec) ha' (hi ▸ hset) hrest
    rw [show (decr t usec).it_interval = t.it_interval from hi] at h
    rw [final, List.foldl_cons, ← final, ← h, expirations, List.sum_cons]
    by_cases hcmp : usec < usecs t.it_value
    · obtain ⟨hret, hval⟩ := hlt hcmp
      rw [show usecs (decr t usec).it_value = _ from hval, hret]
      simp only [one_ne_zero, if_false, Nat.zero_add]
      ring
    · obtain ⟨hret, hval⟩ := hge (not_lt.1 hcmp)
      rw [show usecs (decr t usec).it_value = _ from hval, if_pos hset, if_pos hret]
      push_cast
      ring

theorem final_cons (t : Itimerval) (usec : Int) (calls : List Int) :
    final decr t (usec :: calls) = final decr (decr t usec) calls := rfl

theorem run_of_not_set {calls : List Int} (h : ¬timerisset t.it_value) (hrun : Along decr (Call tick) t calls) :
    calls = [] := by
  cases calls with
  | nil => rfl
  | cons usec calls => exact absurd hrun.1.1 h

/-- A one-shot timer counts down, and the calls stop when nothing is left. -/
theorem oneshot_spec (ht : tick < 1000000) (calls : List Int) (t : Itimerval) (ha : Accepted tick t)
    (hset : ¬timerisset t.it_interval) (hpos : 0 < usecs t.it_value) (hrun : Along decr (Call tick) t calls) :
    usecs (final decr t calls).it_value = max 0 (usecs t.it_value - calls.sum) ∧
      expirations t calls = if usecs t.it_value ≤ calls.sum then 1 else 0 := by
  induction calls generalizing t with
  | nil =>
    simp [expirations, final, le_of_lt hpos, not_le.2 hpos]
  | cons usec calls ih =>
    obtain ⟨⟨-, h0, h1⟩, hrest⟩ := hrun
    obtain ⟨ha', hi, hlt, hge⟩ := itimerdecr_spec ha h0 h1 ht
    rw [final_cons, expirations, List.sum_cons]
    by_cases hcmp : usec < usecs t.it_value
    · obtain ⟨hret, hval⟩ := hlt hcmp
      obtain ⟨hf, he⟩ := ih (decr t usec) ha' (hi ▸ hset) (by rw [decr, hval]; omega) hrest
      rw [decr, hval] at hf he
      rw [decr, hf, he, hret]
      refine ⟨by omega, ?_⟩
      split_ifs <;> omega
    · -- It expires, and is not set any more.
      obtain ⟨hret, hval⟩ := hge (not_lt.1 hcmp)
      rw [if_neg hset] at hval
      have hclear : ¬timerisset (decr t usec).it_value := by
        rw [decr, timerisset_iff ha'.normalized ha'.nonneg, hval]
        omega
      obtain rfl := run_of_not_set hclear hrest
      rw [hret, List.sum_nil, if_pos rfl, if_pos (by omega)]
      exact ⟨by simp only [final, List.foldl_nil, decr, hval]; omega, rfl⟩

/-- The timers stored by `setitimer` and any run of the calls the kernel makes:
every state is normalized and not negative, an interval timer does not drift,
and a one-shot timer expires at the first call that reaches its value. -/
theorem itimer_runs (h0 : 0 < tick) (ht : tick < 1000000) {aitv t : Itimerval} (hok : setitimer tick aitv = .ok t)
    (calls : List Int) (hrun : Along decr (Call tick) t calls) :
    (∀ s ∈ states decr t calls, Normalized s.it_value ∧ 0 ≤ s.it_value.tv_sec) ∧
      (timerisset t.it_interval → usecs t.it_value + expirations t calls * usecs t.it_interval - calls.sum =
        usecs (final decr t calls).it_value) ∧
      (¬timerisset t.it_interval → timerisset t.it_value →
        (expirations t calls = if usecs t.it_value ≤ calls.sum then 1 else 0) ∧
        ∀ before usec after, calls = before ++ usec :: after → before.sum < usecs t.it_value ∧
          ((itimerdecr (final decr t before) usec).2 = 0 ↔ usecs t.it_value ≤ before.sum + usec)) := by
  have ha := setitimer_accepted h0 ht hok
  have hstep : ∀ s usec, Accepted tick s → Call tick s usec → Accepted tick (decr s usec) :=
    fun s usec hs hc => (itimerdecr_spec hs hc.2.1 hc.2.2 ht).accepted
  have hinv := states_of_along hstep ha hrun
  refine ⟨fun s hs => ⟨(hinv s hs).normalized, (hinv s hs).nonneg⟩,
    fun hset => reload_conserves ht calls t ha hset hrun, fun hset hval => ?_⟩
  have hpos := (timerisset_iff ha.normalized ha.nonneg).1 hval
  refine ⟨(oneshot_spec ht calls t ha hset hpos hrun).2, ?_⟩
  rintro before usec after rfl
  obtain ⟨hbefore, ⟨hcall, hu0, hu1⟩, -⟩ := (along_append decr (Call tick) t before (usec :: after)).1 hrun
  have hf := (oneshot_spec ht before t ha hset hpos hbefore).1
  have hab := final_of_along hstep ha hbefore
  have hleft := (timerisset_iff hab.normalized hab.nonneg).1 hcall
  obtain ⟨-, -, hlt, hge⟩ := itimerdecr_spec hab hu0 hu1 ht
  refine ⟨by omega, fun hz => ?_, fun hle => (hge (by omega)).1⟩
  by_contra hn
  have := (hlt (by omega)).1
  omega

/-- With a tick of 10 ms: 25 ms to the first expiry and 20 ms between two, after three ticks. -/
theorem itimer_runs_25ms :
    25000 + expirations ⟨⟨0, 20000⟩, ⟨0, 25000⟩⟩ [10000, 10000, 10000] * 20000 - 30000 =
      usecs (final decr ⟨⟨0, 20000⟩, ⟨0, 25000⟩⟩ [10000, 10000, 10000]).it_value :=
  (@itimer_runs 10000 (by decide) (by decide) ⟨⟨0, 20000⟩, ⟨0, 25000⟩⟩ _ rfl
    [10000, 10000, 10000] (by decide)).2.1 (by decide)

example : expirations ⟨⟨0, 20000⟩, ⟨0, 25000⟩⟩ [10000, 10000, 10000] = 1 := by decide

end BsdKernel.Time
