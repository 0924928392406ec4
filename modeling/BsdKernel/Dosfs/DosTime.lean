import BsdKernel.Lib.Trace
import Mathlib.Data.List.GetD
import Mathlib.Tactic
/-!
# Times of dosfs

`unix2dostime` and `dos2unixtime` of `dosfs/dosfs_conv.c`. Both remember their last
conversion. `unix2dostime` compares the time it is given with `lasttime`, which is the
last one less the time zone: when a call asks for the time that was the last one's
local time, it gets the last answer (`dostime_iff`).

Seconds are `u_long`, so sums are modulo `2 ^ 32`. Every fourth year is a leap year,
2100 too, in both directions.
-/

namespace BsdKernel.DosConv

open BsdKernel.Lib

/-- `union dosdate` -/
structure DosDate where
  day : BitVec 5
  month : BitVec 4
  year : BitVec 7
  deriving DecidableEq, Repr

/-- `union dostime` -/
structure DosTime where
  twoSeconds : BitVec 5
  minutes : BitVec 6
  hours : BitVec 5
  deriving DecidableEq, Repr

def regyear : List Nat := [31, 28, 31, 30, 31, 30, 31, 31, 30, 31, 30, 31]
def leapyear : List Nat := [31, 29, 31, 30, 31, 30, 31, 31, 30, 31, 30, 31]

def yearLen (year : Nat) : Nat := if year % 4 ≠ 0 then 365 else 366

def months (year : Nat) : List Nat := if year % 4 ≠ 0 then regyear else leapyear

/-- `SECONDSTO1980` -/
def secondsTo1980 : Nat := (8 * 365 + 2 * 366) * (24 * 60 * 60)

/-- `tz.tz_minuteswest * 60` -/
def west (tz : Int) : Nat := (tz * 60 % 2 ^ 32).toNat

/-- The seconds of the local time. -/
def localTime (tz : Int) (t : Nat) : Nat := (t + 2 ^ 32 - west tz) % 2 ^ 32

/-! ## Without the caches -/

/-- The loop over the years: the year, and the days left in it. -/
def yearLoop : Nat → Nat → Nat → Nat × Nat
  | 0, year, days => (year, days)
  | fuel + 1, year, days =>
    if days < yearLen year then (year, days) else yearLoop fuel (year + 1) (days - yearLen year)

/-- The loop over the months. -/
def monthLoop : List Nat → Nat → Nat → Nat × Nat
  | [], month, days => (month, days)
  | m :: ms, month, days => if days < m then (month, days) else monthLoop ms (month + 1) (days - m)

/-- The date of a day since 1970. -/
def dosDate (days : Nat) : DosDate :=
  let y := yearLoop days 1970 days
  let m := monthLoop (months y.1) 0 y.2
  ⟨BitVec.ofNat 5 (m.2 + 1), BitVec.ofNat 4 (m.1 + 1), BitVec.ofNat 7 (if y.1 < 1980 then 0 else y.1 - 1980)⟩

def dosTime (s : Nat) : DosTime :=
  ⟨BitVec.ofNat 5 (s % 60 / 2), BitVec.ofNat 6 (s / 60 % 60), BitVec.ofNat 5 (s / (60 * 60) % 24)⟩

/-- What `unix2dostime` makes of local seconds. -/
def dosOf (s : Nat) : DosDate × DosTime := (dosDate (s / (24 * 60 * 60)), dosTime s)

/-- `lastseconds` of a date. `beyond` is the memory behind the two tables, for a month above 12. -/
def dateSeconds (beyond : Bool → Nat → Nat) (dd : DosDate) : Nat :=
  let yr := dd.year.toNat
  let month := if dd.month = 0 then 1 else dd.month.toNat
  let days := ((List.range yr).map yearLen).sum +
    ((List.range (month - 1)).map fun i => (months yr).getD i (beyond (yr % 4 ≠ 0) i)).sum
  let days := (days + dd.day.toNat + (2 ^ 32 - 1)) % 2 ^ 32
  (days * 24 * 60 * 60 + secondsTo1980) % 2 ^ 32

def timeSeconds (dt : DosTime) : Nat := dt.twoSeconds.toNat * 2 + dt.minutes.toNat * 60 + dt.hours.toNat * 60 * 60

/-- What `dos2unixtime` makes of a date and a time. -/
def unixOf (beyond : Bool → Nat → Nat) (tz : Int) (d : DosDate × DosTime) : Nat :=
  (timeSeconds d.2 + dateSeconds beyond d.1 + west tz) % 2 ^ 32

/-! ## With the caches -/

structure Cache where
  lasttime : Nat
  lastday : Nat
  lastddate : DosDate
  lastdtime : DosTime
  lastdosdate : DosDate
  lastseconds : Nat
  deriving DecidableEq, Repr

/-- The variables at boot. -/
def noCache : Cache := ⟨0, 0, ⟨0, 0, 0⟩, ⟨0, 0, 0⟩, ⟨0, 0, 0⟩, 0⟩

def unix2dostime (tz : Int) (s : Cache) (t : Nat) : Cache × DosDate × DosTime :=
  let s :=
    if s.lasttime ≠ t then
      let s := { s with lasttime := localTime tz t, lastdtime := dosTime (localTime tz t) }
      let days := s.lasttime / (24 * 60 * 60)
      if days ≠ s.lastday then { s with lastday := days, lastddate := dosDate days } else s
    else s
  (s, s.lastddate, s.lastdtime)

/-- A month of 0 is set to 1 in the caller's date, and the time is returned. -/
def dos2unixtime (beyond : Bool → Nat → Nat) (tz : Int) (s : Cache) (dd : DosDate) (dt : DosTime) :
    Cache × DosDate × Nat :=
  if s.lastdosdate ≠ dd then
    let s := { s with lastdosdate := dd, lastseconds := dateSeconds beyond dd }
    (s, if dd.month = 0 then { dd with month := 1 } else dd, (timeSeconds dt + s.lastseconds + west tz) % 2 ^ 32)
  else (s, dd, (timeSeconds dt + s.lastseconds + west tz) % 2 ^ 32)

/-- An earlier call. -/
inductive Call where
  | unix2dos (t : BitVec 32)
  | dos2unix (dd : DosDate) (dt : DosTime)
  deriving DecidableEq, Repr

def step (beyond : Bool → Nat → Nat) (tz : Int) (s : Cache) : Call → Cache
  | .unix2dos t => (unix2dostime tz s t.toNat).1
  | .dos2unix dd dt => (dos2unixtime beyond tz s dd dt).1

/-- The local date is in 1980 to 2105. -/
def InRange (tz : Int) (t : Nat) : Prop := secondsTo1980 ≤ localTime tz t ∧ localTime tz t < 4291747200

/-- The answer is that of the time alone, and it gives back the time less an odd second. -/
def Pure (beyond : Bool → Nat → Nat) (tz : Int) (s : Cache) (t : Nat) : Prop :=
  (unix2dostime tz s t).2 = dosOf (localTime tz t) ∧
    (dos2unixtime beyond tz (unix2dostime tz s t).1 (unix2dostime tz s t).2.1 (unix2dostime tz s t).2.2).2.2 = t - t % 2

/-- The time is not the last one's local time, or it makes no difference: the two local times have the same date and
time, and the date was set. -/
def Fits (tz : Int) (s : Cache) (t : Nat) : Prop :=
  s.lasttime ≠ t ∨ dosOf t = dosOf (localTime tz t) ∧ s.lastddate ≠ ⟨0, 0, 0⟩

/-! ## The calendar -/

/-- The days of `n` years. -/
def yearsDays (year n : Nat) : Nat := ((List.range n).map fun i => yearLen (year + i)).sum

theorem yearsDays_succ (year n : Nat) : yearsDays year (n + 1) = yearLen year + yearsDays (year + 1) n := by
  simp [yearsDays, List.range_succ_eq_map, List.map_map, Function.comp_def, Nat.add_assoc, Nat.add_comm 1]

theorem yearLen_pos (year : Nat) : 365 ≤ yearLen year := by
  unfold yearLen
  split_ifs <;> omega

theorem yearsDays_le (year n : Nat) : 365 * n ≤ yearsDays year n := by
  induction n generalizing year with
  | zero => simp
  | succ n ih =>
    have := yearLen_pos year
    have := ih (year + 1)
    rw [yearsDays_succ]
    omega

theorem yearsDays_add (year m n : Nat) : yearsDays year (m + n) = yearsDays year m + yearsDays (year + m) n := by
  induction m generalizing year with
  | zero => simp [yearsDays]
  | succ m ih =>
    have he : year + 1 + m = year + (m + 1) := by omega
    rw [Nat.add_right_comm, yearsDays_succ, yearsDays_succ, ih, he]
    omega

theorem yearLoop_spec (fuel year days : Nat) (h : days ≤ fuel) :
    ∃ n, (yearLoop fuel year days).1 = year + n ∧ days = yearsDays year n + (yearLoop fuel year days).2 ∧
      (yearLoop fuel year days).2 < yearLen (year + n) := by
  induction fuel generalizing year days with
  | zero =>
    obtain rfl := Nat.le_zero.1 h
    have := yearLen_pos year
    exact ⟨0, rfl, by simp [yearLoop, yearsDays], by simp only [yearLoop, Nat.add_zero]; omega⟩
  | succ fuel ih =>
    rw [yearLoop]
    split_ifs with hlt
    · exact ⟨0, rfl, by simp [yearsDays], hlt⟩
    · have := yearLen_pos year
      obtain ⟨n, hy, hd, hr⟩ := ih (year + 1) (days - yearLen year) (by omega)
      refine ⟨n + 1, by omega, ?_, ?_⟩
      · rw [yearsDays_succ]
        omega
      · rwa [show year + (n + 1) = year + 1 + n by omega]

theorem monthLoop_spec (ms : List Nat) (month days : Nat) (h : days < ms.sum) :
    ∃ j, (monthLoop ms month days).1 = month + j ∧ j < ms.length ∧ days = (ms.take j).sum + (monthLoop ms month days).2 ∧
      (monthLoop ms month days).2 < ms.getD j 0 := by
  induction ms generalizing month days with
  | nil => simp at h
  | cons m ms ih =>
    rw [monthLoop]
    split_ifs with hlt
    · exact ⟨0, rfl, by simp, by simp, by simpa using hlt⟩
    · rw [List.sum_cons] at h
      obtain ⟨j, hm, hj, hd, hr⟩ := ih (month + 1) (days - m) (by omega)
      refine ⟨j + 1, by omega, by simpa using hj, ?_, by simpa using hr⟩
      rw [List.take_succ_cons, List.sum_cons]
      omega

theorem months_sum (year : Nat) : (months year).sum = yearLen year := by
  unfold months yearLen
  split_ifs <;> rfl

theorem months_length (year : Nat) : (months year).length = 12 := by
  unfold months
  split_ifs <;> rfl

theorem months_le (year j : Nat) : (months year).getD j 0 ≤ 31 := by
  have hall : ∀ m ∈ months year, m ≤ 31 := by
    unfold months
    split_ifs <;> decide
  by_cases hj : j < (months year).length
  · rw [List.getD_eq_getElem _ _ hj]
    exact hall _ (List.getElem_mem hj)
  · rw [List.getD_eq_default _ _ (by omega)]
    omega

theorem map_getD_range (l : List Nat) (f : Nat → Nat) {j : Nat} (h : j ≤ l.length) :
    (List.range j).map (fun i => l.getD i (f i)) = l.take j := by
  refine List.ext_getElem (by simp [h]) fun i h1 h2 => ?_
  have hi : i < l.length := by
    rw [List.length_take] at h2
    omega
  rw [List.getElem_map, List.getElem_range, List.getD_eq_getElem _ _ hi, List.getElem_take]

/-- 1980 is a leap year, so years count the same from there. -/
theorem yearLen_1980 (i : Nat) : yearLen (1980 + i) = yearLen i ∧ months (1980 + i) = months i := by
  have h : (1980 + i) % 4 = i % 4 := by omega
  exact ⟨by rw [yearLen, h, yearLen], by rw [months, h, months]⟩

/-- The parts of a day from 1980 on. -/
theorem dosDate_parts {d : Nat} (h0 : 3652 ≤ d) (h1 : d < 49711) :
    ∃ k j r, d = 3652 + yearsDays 1980 k + ((months k).take j).sum + r ∧ j < 12 ∧
      (dosDate d).day.toNat = r + 1 ∧ (dosDate d).month.toNat = j + 1 ∧ (dosDate d).year.toNat = k := by
  obtain ⟨n, hy, hd, hr⟩ := yearLoop_spec d 1970 d (Nat.le_refl d)
  have h1980 : yearsDays 1970 10 = 3652 := rfl
  have hn : 10 ≤ n := by
    by_contra hlt
    have hle : yearsDays 1970 (n + 1) ≤ yearsDays 1970 10 := by
      obtain ⟨i, hi⟩ := Nat.exists_eq_add_of_le (show n + 1 ≤ 10 by omega)
      rw [hi, yearsDays_add 1970 (n + 1) i]
      exact Nat.le_add_right _ _
    have hsucc : yearsDays 1970 (n + 1) = yearsDays 1970 n + yearLen (1970 + n) := by
      rw [yearsDays_add]
      simp [yearsDays]
    omega
  obtain ⟨k, rfl⟩ := Nat.exists_eq_add_of_le hn
  have hk : k < 128 := by
    have := yearsDays_le 1970 (10 + k)
    omega
  have hyear : 1970 + (10 + k) = 1980 + k := by omega
  rw [hyear] at hy hr
  have hten : 1970 + 10 = 1980 := rfl
  rw [yearsDays_add, h1980, hten] at hd
  obtain ⟨hlen, hmonths⟩ := yearLen_1980 k
  obtain ⟨j, hm, hj, hdm, hrm⟩ := monthLoop_spec (months k) 0 (yearLoop d 1970 d).2 (by rw [months_sum, ← hlen]; exact hr)
  rw [months_length] at hj
  have hle := months_le k j
  refine ⟨k, j, (monthLoop (months k) 0 (yearLoop d 1970 d).2).2, by omega, hj, ?_, ?_, ?_⟩
  · simp only [dosDate, hy, hmonths, BitVec.toNat_ofNat]
    omega
  · simp only [dosDate, hy, hmonths, hm, BitVec.toNat_ofNat]
    omega
  · simp only [dosDate, hy, BitVec.toNat_ofNat]
    split_ifs <;> omega

/-- A date from 1980 on gives back its day. -/
theorem dateSeconds_dosDate (beyond : Bool → Nat → Nat) {d : Nat} (h0 : 3652 ≤ d) (h1 : d < 49711) :
    dateSeconds beyond (dosDate d) = d * (24 * 60 * 60) := by
  obtain ⟨k, j, r, hd, hj, hday, hmonth, hyear⟩ := dosDate_parts h0 h1
  have hne : (dosDate d).month ≠ 0 := by
    intro hz
    rw [hz] at hmonth
    simp at hmonth
  have hyears : ((List.range k).map yearLen).sum = yearsDays 1980 k := by
    rw [yearsDays]
    congr 1
    exact List.map_congr_left fun i _ => (yearLen_1980 i).1.symm
  have htake := map_getD_range (months k) (beyond (k % 4 ≠ 0)) (j := j) (by rw [months_length]; omega)
  simp only [dateSeconds, if_neg hne, hday, hmonth, hyear, hyears, Nat.add_sub_cancel, secondsTo1980]
  rw [htake]
  omega

/-! ## The round trip -/

theorem timeSeconds_dosTime (x : Nat) : timeSeconds (dosTime x) = x % (24 * 60 * 60) - x % 2 := by
  simp only [timeSeconds, dosTime, BitVec.toNat_ofNat]
  omega

theorem west_even (tz : Int) : west tz % 4 = 0 ∧ west tz < 2 ^ 32 := by
  unfold west
  omega

theorem unixOf_dosOf (beyond : Bool → Nat → Nat) (tz : Int) {x : Nat} (h0 : secondsTo1980 ≤ x) (h1 : x < 2 ^ 32) :
    unixOf beyond tz (dosOf x) = (x - x % 2 + west tz) % 2 ^ 32 := by
  unfold secondsTo1980 at h0
  have hdate := dateSeconds_dosDate beyond (d := x / (24 * 60 * 60)) (by omega) (by omega)
  rw [unixOf, dosOf, hdate, timeSeconds_dosTime]
  omega

theorem unixOf_local (beyond : Bool → Nat → Nat) {tz : Int} {t : Nat} (ht : t < 2 ^ 32) (h : InRange tz t) :
    unixOf beyond tz (dosOf (localTime tz t)) = t - t % 2 := by
  have hw := west_even tz
  have hl : localTime tz t = (t + 2 ^ 32 - west tz) % 2 ^ 32 := rfl
  rw [unixOf_dosOf beyond tz h.1 (by rw [hl]; exact Nat.mod_lt _ (by omega))]
  omega

/-- From 1980 on two different local times of the same time have different dates or times of day. -/
theorem dosOf_local_iff {tz : Int} {t : Nat} (ht : t < 2 ^ 32) (h0 : secondsTo1980 ≤ t) (h : InRange tz t) :
    dosOf t = dosOf (localTime tz t) ↔ west tz = 0 := by
  have hw := west_even tz
  have hl : localTime tz t = (t + 2 ^ 32 - west tz) % 2 ^ 32 := rfl
  constructor
  · intro he
    have hback := unixOf_dosOf (fun _ _ => 0) 0 h0 ht
    rw [he, unixOf_dosOf _ 0 h.1 (by rw [hl]; exact Nat.mod_lt _ (by omega))] at hback
    have hz : west 0 = 0 := rfl
    rw [hz] at hback
    omega
  · intro hz
    rw [localTime, hz, Nat.sub_zero, Nat.add_mod_right, Nat.mod_eq_of_lt ht]

/-! ## The caches -/

/-- The caches hold what was computed last, or a date of zeros that never was. -/
structure Cache.Inv (beyond : Bool → Nat → Nat) (s : Cache) : Prop where
  day : s.lastday = s.lasttime / (24 * 60 * 60)
  time : s.lastdtime = dosTime s.lasttime
  date : s.lastddate = dosDate s.lastday ∨ s.lastday = 0 ∧ s.lastddate = ⟨0, 0, 0⟩
  seconds : s.lastseconds = dateSeconds beyond s.lastdosdate ∨ s.lastdosdate = ⟨0, 0, 0⟩

section Caches
variable {beyond : Bool → Nat → Nat} {tz : Int} {s : Cache} {t : Nat}

theorem inv_noCache : noCache.Inv beyond := ⟨rfl, by decide, Or.inr ⟨rfl, rfl⟩, Or.inr rfl⟩

theorem Cache.Inv.unix2dostime (h : s.Inv beyond) : (unix2dostime tz s t).1.Inv beyond := by
  unfold DosConv.unix2dostime
  simp only
  split_ifs with h1 h2
  · exact ⟨rfl, rfl, Or.inl rfl, h.seconds⟩
  · exact ⟨(not_not.1 h2).symm, rfl, h.date, h.seconds⟩
  · exact h

theorem Cache.Inv.dos2unixtime (h : s.Inv beyond) (dd : DosDate) (dt : DosTime) :
    (dos2unixtime beyond tz s dd dt).1.Inv beyond := by
  unfold DosConv.dos2unixtime
  split_ifs
  · exact ⟨h.day, h.time, h.date, Or.inl rfl⟩
  · exact ⟨h.day, h.time, h.date, Or.inl rfl⟩
  · exact h

theorem inv_final (calls : List Call) : (final (step beyond tz) noCache calls).Inv beyond := by
  have hall := along_of_forall (step beyond tz) (fun (_ : Cache) (_ : Call) => trivial) noCache calls
  refine final_of_along (fun s c h _ => ?_) inv_noCache hall
  cases c with
  | unix2dos t => exact h.unix2dostime
  | dos2unix dd dt => exact h.dos2unixtime dd dt

/-- The cache of `dos2unixtime` never shows, but for a date of zeros. -/
theorem dos2unixtime_pure (h : s.Inv beyond) {dd : DosDate} (hdd : dd ≠ ⟨0, 0, 0⟩) (dt : DosTime) :
    (dos2unixtime beyond tz s dd dt).2.2 = unixOf beyond tz (dd, dt) := by
  by_cases hne : s.lastdosdate ≠ dd
  · rw [dos2unixtime, if_pos hne]
    rfl
  · rw [dos2unixtime, if_neg hne]
    obtain rfl := not_not.1 hne
    obtain hs | hs := h.seconds
    · simp only [hs]
      rfl
    · exact absurd hs hdd

theorem dosDate_ne_zero (hr : InRange tz t) : dosDate (localTime tz t / (24 * 60 * 60)) ≠ ⟨0, 0, 0⟩ := by
  intro hz
  have hsec := hr.1
  unfold secondsTo1980 at hsec
  obtain ⟨k, j, r, -, -, hday, -⟩ := dosDate_parts (d := localTime tz t / (24 * 60 * 60)) (by omega)
    (by have := hr.2; omega)
  rw [hz] at hday
  simp at hday

/-- The answer is right unless it is taken from the cache for another local time. -/
theorem unix2dostime_iff (h : s.Inv beyond) (hr : InRange tz t) :
    (unix2dostime tz s t).2 = dosOf (localTime tz t) ↔ Fits tz s t := by
  by_cases hne : s.lasttime ≠ t
  · refine ⟨fun _ => Or.inl hne, fun _ => ?_⟩
    have hsec := hr.1
    unfold secondsTo1980 at hsec
    rw [unix2dostime, if_pos hne]
    simp only
    split_ifs with hd
    · rfl
    · rw [not_not] at hd
      obtain hdate | ⟨hz, -⟩ := h.date
      · simp only [hdate, ← hd]
        rfl
      · omega
  · obtain rfl := not_not.1 hne
    have hres : (unix2dostime tz s s.lasttime).2 = (s.lastddate, dosTime s.lasttime) := by
      rw [unix2dostime, if_neg hne, h.time]
    rw [hres]
    constructor
    · intro he
      have hdate : s.lastddate = dosDate (localTime tz s.lasttime / (24 * 60 * 60)) := congrArg Prod.fst he
      have hnz : s.lastddate ≠ ⟨0, 0, 0⟩ := by
        rw [hdate]
        exact dosDate_ne_zero hr
      obtain hd | ⟨-, hz⟩ := h.date
      · refine Or.inr ⟨?_, hnz⟩
        rw [← he, dosOf, ← h.day, hd]
      · exact absurd hz hnz
    · rintro (hl | ⟨he, hnz⟩)
      · exact absurd rfl hl
      · obtain hd | ⟨-, hz⟩ := h.date
        · rw [← he, dosOf, ← h.day, hd]
        · exact absurd hz hnz

theorem pure_iff_fits (h : s.Inv beyond) (ht : t < 2 ^ 32) (hr : InRange tz t) : Pure beyond tz s t ↔ Fits tz s t := by
  rw [← unix2dostime_iff h hr]
  refine ⟨fun hp => hp.1, fun he => ⟨he, ?_⟩⟩
  rw [he]
  exact (dos2unixtime_pure h.unix2dostime (dosDate_ne_zero hr) _).trans (unixOf_local beyond ht hr)

end Caches

/-- After any calls: `unix2dostime` answers for the time it is given exactly if that is not the last one's local time,
or this makes no difference; from 1980 on it makes none only without a time zone. `dos2unixtime` answers for the date
it is given. -/
theorem dostime_iff (beyond : Bool → Nat → Nat) (tz : Int) (calls : List Call) (t : BitVec 32) (hr : InRange tz t.toNat) :
    let s := final (step beyond tz) noCache calls
    (Pure beyond tz s t.toNat ↔ Fits tz s t.toNat) ∧
      (secondsTo1980 ≤ t.toNat → (dosOf t.toNat = dosOf (localTime tz t.toNat) ↔ west tz = 0)) ∧
      ∀ dd dt, dd ≠ ⟨0, 0, 0⟩ → (dos2unixtime beyond tz s dd dt).2.2 = unixOf beyond tz (dd, dt) :=
  ⟨pure_iff_fits (inv_final calls) t.isLt hr, fun h0 => dosOf_local_iff t.isLt h0 hr,
    fun _ dt hdd => dos2unixtime_pure (inv_final calls) hdd dt⟩

/-- One hour west of Greenwich: a call for the last one's local time. -/
theorem dostime_stale_hour :
    ¬Pure (fun _ _ => 0) 60 (final (step (fun _ _ => 0) 60) noCache [.unix2dos 1000003600]) 1000000000 := by
  have hr : InRange 60 (1000000000 : BitVec 32).toNat := by unfold InRange; decide
  have hlast : (final (step (fun _ _ => 0) 60) noCache [.unix2dos 1000003600]).lasttime = 1000000000 := by decide
  have h := dostime_iff (fun _ _ => 0) 60 [.unix2dos 1000003600] 1000000000 hr
  refine fun hp => (h.1.1 hp).elim (fun hne => hne hlast) fun he => ?_
  exact absurd ((h.2.1 (by decide)).1 he.1) (by decide)

theorem unix2dostime_stale : ¬ ∀ (beyond : Bool → Nat → Nat) (tz : Int) (calls : List Call) (t : BitVec 32),
    InRange tz t.toNat → Pure beyond tz (final (step beyond tz) noCache calls) t.toNat := by
  intro h
  have hr : InRange 60 (1000000000 : BitVec 32).toNat := by unfold InRange; decide
  have hp := h (fun _ _ => 0) 60 [.unix2dos 1000003600] 1000000000 hr
  have hlast : (final (step (fun _ _ => 0) 60) noCache [.unix2dos 1000003600]).lasttime = 1000000000 := by decide
  refine ((pure_iff_fits (inv_final _) (BitVec.isLt _) hr).1 hp).elim (fun hne => hne hlast) fun he => ?_
  exact absurd ((dosOf_local_iff (BitVec.isLt _) (by decide) hr).1 he.1) (by decide)

end BsdKernel.DosConv
