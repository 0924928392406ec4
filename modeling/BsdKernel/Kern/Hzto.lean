import BsdKernel.Kern.Adjtime
/-!
# Ticks until a time

`hzto` of `kern/kern_clock.c` with `hz` 100, on a 32-bit `long` that wraps. Up
to 2146483 seconds it scales milliseconds (`hzto_exact`), further off it counts
whole seconds, and from `0x7fffffff` ticks on it saturates (`hzto_ticks`).
-/

namespace BsdKernel.Hzto

open BsdKernel.Lib BsdKernel.Time

def hz : Int := 100

/-- Microseconds in a clock tick. -/
def tick : Int := 1000000 / hz

/-- `hzto`, where `time` is the current time. -/
def hzto (time tv : Timeval) : Int :=
  let sec := wrap32 (tv.tv_sec - time.tv_sec)
  if sec ≤ 0x7fffffff / 1000 - 1000 then
    (wrap32 (wrap32 (wrap32 (tv.tv_sec - time.tv_sec) * 1000) +
      (wrap32 (tv.tv_usec - time.tv_usec)).tdiv 1000)).tdiv (tick / 1000)
  else if sec ≤ 0x7fffffff / hz then wrap32 (sec * hz)
  else 0x7fffffff

/-- The ticks are those of the difference, up to one of rounding, and on its side of zero. -/
def Exact (time tv : Timeval) : Prop :=
  |hzto time tv * tick - (usecs tv - usecs time)| < tick ∧ (0 < hzto time tv → usecs time < usecs tv) ∧
    (hzto time tv < 0 → usecs tv < usecs time)

instance (time tv : Timeval) : Decidable (Exact time tv) := by
  unfold Exact
  infer_instance

/-- Rounding to milliseconds and then to ticks, each time towards zero, loses
less than a tick and never changes the sign. -/
theorem round_twice (d u q t : Int) (hq : q = u.tdiv 1000) (ht : t = (d * 1000 + q).tdiv 10)
    (hu : -1000000 < u ∧ u < 1000000) :
    |t * 10000 - (d * 1000000 + u)| < 10000 ∧ (0 < t → 0 < d * 1000000 + u) ∧ (t < 0 → d * 1000000 + u < 0) := by
  have hus : truncTo 1000 u = q * 1000 := by rw [hq, truncTo]
  have hms : truncTo 10 (d * 1000 + q) = t * 10 := by rw [ht, truncTo]
  have hsign : (0 ≤ u → 0 ≤ q * 1000 ∧ q * 1000 ≤ u ∧ u < q * 1000 + 1000) ∧
      (u ≤ 0 → q * 1000 ≤ 0 ∧ u ≤ q * 1000 ∧ q * 1000 < u + 1000) :=
    ⟨fun h => hus ▸ truncTo_of_nonneg (by decide) h, fun h => hus ▸ truncTo_of_nonpos (by decide) h⟩
  have hsign' : (0 ≤ d * 1000 + q → 0 ≤ t * 10 ∧ t * 10 ≤ d * 1000 + q ∧ d * 1000 + q < t * 10 + 10) ∧
      (d * 1000 + q ≤ 0 → t * 10 ≤ 0 ∧ d * 1000 + q ≤ t * 10 ∧ t * 10 < d * 1000 + q + 10) :=
    ⟨fun h => hms ▸ truncTo_of_nonneg (by decide) h, fun h => hms ▸ truncTo_of_nonpos (by decide) h⟩
  rw [abs_lt]
  omega

theorem millis_bounds {u : Int} (hu : -1000000 < u ∧ u < 1000000) : -1000 < u.tdiv 1000 ∧ u.tdiv 1000 < 1000 := by
  have h : truncTo 1000 u = u.tdiv 1000 * 1000 := rfl
  rcases le_total 0 u with h0 | h0
  · have := truncTo_of_nonneg (d := 1000) (by decide) h0
    omega
  · have := truncTo_of_nonpos (d := 1000) (by decide) h0
    omega

theorem usec_diff {time tv : Timeval} (ht : Normalized time) (htv : Normalized tv) :
    -1000000 < tv.tv_usec - time.tv_usec ∧ tv.tv_usec - time.tv_usec < 1000000 := by
  unfold Normalized at *
  omega

/-- The first range: the milliseconds fit a `long`. -/
theorem hzto_exact {time tv : Timeval} (ht : Normalized time) (htv : Normalized tv)
    (hlow : -2 ^ 31 ≤ (tv.tv_sec - time.tv_sec) * 1000 + (tv.tv_usec - time.tv_usec).tdiv 1000)
    (hhigh : tv.tv_sec - time.tv_sec ≤ 2146483) : Exact time tv := by
  have hu := usec_diff ht htv
  have hq := millis_bounds hu
  have hd : wrap32 (tv.tv_sec - time.tv_sec) = tv.tv_sec - time.tv_sec := wrap32_of_fits ⟨by omega, by omega⟩
  have huw : wrap32 (tv.tv_usec - time.tv_usec) = tv.tv_usec - time.tv_usec :=
    wrap32_of_fits ⟨by omega, by omega⟩
  have hms : wrap32 ((tv.tv_sec - time.tv_sec) * 1000 + (tv.tv_usec - time.tv_usec).tdiv 1000) =
      (tv.tv_sec - time.tv_sec) * 1000 + (tv.tv_usec - time.tv_usec).tdiv 1000 :=
    wrap32_of_fits ⟨hlow, by omega⟩
  have hval : hzto time tv =
      ((tv.tv_sec - time.tv_sec) * 1000 + (tv.tv_usec - time.tv_usec).tdiv 1000).tdiv 10 := by
    simp only [hzto, hd, huw, wrap32_wrap32_add, hms]
    rw [if_pos (by omega)]
    rfl
  have hdiff : usecs tv - usecs time = (tv.tv_sec - time.tv_sec) * 1000000 + (tv.tv_usec - time.tv_usec) := by
    unfold usecs
    omega
  obtain ⟨hround, hpos, hneg⟩ := round_twice (tv.tv_sec - time.tv_sec) (tv.tv_usec - time.tv_usec) _ _ rfl hval hu
  rw [← hdiff] at hround hpos hneg
  exact ⟨hround, fun h => Int.sub_pos.1 (hpos h), fun h => by have := hneg h; omega⟩

/-- `hzto` on a difference whose seconds and milliseconds do not wrap: exact to
a tick below 25 days, in whole seconds below 249 days, and saturated above. -/
theorem hzto_ticks {time tv : Timeval} (ht : Normalized time) (htv : Normalized tv)
    (hlow : -2 ^ 31 ≤ (tv.tv_sec - time.tv_sec) * 1000 + (tv.tv_usec - time.tv_usec).tdiv 1000)
    (hhigh : tv.tv_sec - time.tv_sec < 2 ^ 31) :
    (tv.tv_sec - time.tv_sec ≤ 2146483 → Exact time tv) ∧
      (2146483 < tv.tv_sec - time.tv_sec → usecs time < usecs tv ∧
        (tv.tv_sec - time.tv_sec ≤ 21474836 → hzto time tv = (tv.tv_sec - time.tv_sec) * hz) ∧
        (21474836 < tv.tv_sec - time.tv_sec → hzto time tv = 0x7fffffff)) := by
  refine ⟨hzto_exact ht htv hlow, fun hfar => ?_⟩
  have hu := usec_diff ht htv
  have hd : wrap32 (tv.tv_sec - time.tv_sec) = tv.tv_sec - time.tv_sec := wrap32_of_fits ⟨by omega, hhigh⟩
  simp only [hzto, hd]
  rw [if_neg (by omega)]
  refine ⟨by unfold usecs; omega, fun hmid => ?_, fun hmax => ?_⟩
  · rw [if_pos (by unfold hz; omega)]
    exact wrap32_of_fits ⟨by unfold hz; omega, by unfold hz; omega⟩
  · rw [if_neg (by unfold hz; omega)]

/-- One and a half seconds. -/
theorem hzto_second_and_a_half : Exact ⟨10, 700000⟩ ⟨12, 200000⟩ :=
  (hzto_ticks (by decide) (by decide) (by decide) (by decide)).1 (by decide)

/-- A month and 0.99 seconds lose 99 ticks, and a time 25 days ago is a large
positive number of ticks. -/
theorem hzto_inexact :
    hzto ⟨0, 0⟩ ⟨3000000, 990000⟩ = 300000000 ∧ ¬Exact ⟨0, 0⟩ ⟨3000000, 990000⟩ ∧
      hzto ⟨2147484, 0⟩ ⟨0, 0⟩ = 214748329 ∧ ¬Exact ⟨2147484, 0⟩ ⟨0, 0⟩ := by
  decide

end BsdKernel.Hzto
