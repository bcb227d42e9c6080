import Ucmq.DecimalText
import Ucmq.LabelledRun

/-!
# The time of a log line

get_time of log.c keeps the time of the last call. Minute and second are computed
at every new second, day and hour only when the hour is not the one that is kept:
a call in the same hour of a later day is given the earlier day. The time that
belongs to a clock reading is a function of the reading alone, and all calls of a
run return it exactly when no call follows one in the same hour of another day.
-/

namespace Ucmq.LogTime

open DecimalText LabelledRun

/-- A reading of the clock, in seconds since the Epoch. -/
structure Timespec where
  /-- Seconds. -/
  sec : ℤ
  /-- Nanoseconds of the second. -/
  nsec : ℤ
  sec_nonneg : 0 ≤ sec
  nsec_nonneg : 0 ≤ nsec
  nsec_lt : nsec < 10^9

/-- A time to be printed. -/
structure TimeInfo where
  /-- Day, 16 bits. -/
  day : ℤ
  /-- Millisecond, 16 bits. -/
  msec : ℤ
  /-- Hour, 8 bits. -/
  hour : ℤ
  /-- Minute, 8 bits. -/
  min : ℤ
  /-- Second, 8 bits. -/
  sec : ℤ
  deriving DecidableEq

/-- What get_time keeps between calls. -/
structure TimeCache where
  /-- Second of the last call. -/
  sec : ℤ
  /-- Time of the last call. -/
  info : TimeInfo
  deriving DecidableEq

/-- The static variables at the start of the process. -/
def TimeCache.zero : TimeCache := ⟨0, ⟨0, 0, 0, 0, 0⟩⟩

/-- A time zone offset in hours as the configuration keeps it, an unsigned int. -/
def zoneOf (tz : ℤ) : ℕ := (tz%2^32).toNat

/-- Hour and change of day, from the second of the day. -/
def hourAndDay (timeZone : ℕ) (t : ℤ) : ℤ × ℤ :=
  let hour := toI32 (t/(60*60)+timeZone)
  let day := 0
  let (hour, day) := if 24 ≤ hour then (hour-24, 1) else (hour, day)
  if hour < 0 then (hour+24, -1) else (hour, day)

/-- Time of a log line at a clock reading. No operand of a division is negative. -/
def getTime (timeZone : ℕ) (cur : Timespec) (g : TimeCache) : TimeInfo × TimeCache :=
  let ti := { g.info with msec := cur.nsec/(1000*1000)%2^16 }
  if g.sec ≠ cur.sec then
    let t := cur.sec%(24*60*60)
    let (hour, day) := hourAndDay timeZone t
    let ti := if hour ≠ g.info.hour then
      { ti with hour := hour%2^8, day := (day+cur.sec/(24*60*60))%2^16 } else ti
    let t := t%(60*60)
    let ti := { ti with min := t/60%2^8, sec := t%60%2^8 }
    (ti, ⟨cur.sec, ti⟩)
  else (ti, g)

/-- Seconds since the Epoch, shifted by an offset in hours. -/
def localSec (tz : ℤ) (cur : Timespec) : ℤ := cur.sec+tz*3600

/-- Day of the shifted clock. -/
def localDay (tz : ℤ) (cur : Timespec) : ℤ := localSec tz cur/86400

/-- Hour of the shifted clock. -/
def localHour (tz : ℤ) (cur : Timespec) : ℤ := localSec tz cur%86400/3600

/-- Day as a number of 16 bits. -/
def dayNumber (tz : ℤ) (cur : Timespec) : ℤ := localDay tz cur%2^16

/-- The time that belongs to a clock reading. -/
def timeOf (tz : ℤ) (cur : Timespec) : TimeInfo where
  day := dayNumber tz cur
  msec := cur.nsec/10^6
  hour := localHour tz cur
  min := localSec tz cur%3600/60
  sec := localSec tz cur%60

/-- The first call of the process is not in an hour like the one kept at the
start, or it is on the day kept then. -/
def FirstCall (tz : ℤ) (cur : Timespec) : Prop :=
  (cur.sec = 0 → tz = 0) ∧ (cur.sec ≠ 0 → localHour tz cur = 0 → dayNumber tz cur = 0)

/-- Two calls in the same hour are on the same day. -/
def SameHourSameDay (tz : ℤ) (a b : Timespec) : Prop :=
  localHour tz a = localHour tz b → dayNumber tz a = dayNumber tz b

/-- What is kept belongs to a clock reading, but for the millisecond. -/
structure Keeps (tz : ℤ) (g : TimeCache) (cur : Timespec) : Prop where
  sec : g.sec = cur.sec
  info : { g.info with msec := (timeOf tz cur).msec } = timeOf tz cur

variable {tz : ℤ} {cur a b : Timespec} {g : TimeCache}

/-- Hour and day of the source are those of the shifted clock. -/
theorem hourAndDay_zone (hlo : -12 ≤ tz) (hhi : tz ≤ 14) (cur : Timespec) :
    hourAndDay (zoneOf tz) (cur.sec%(24*60*60)) =
      (localHour tz cur, localDay tz cur-cur.sec/(24*60*60)) := by
  have hsec := cur.sec_nonneg
  have hzone :
      toI32 (cur.sec%(24*60*60)/(60*60)+(zoneOf tz : ℕ)) = cur.sec%(24*60*60)/(60*60)+tz := by
    rw [zoneOf, toI32, Int.bmod_def]
    split <;> omega
  have hfirst : 0 ≤ cur.sec%(24*60*60)/(60*60) ∧ cur.sec%(24*60*60)/(60*60) < 24 := by omega
  unfold hourAndDay
  rw [hzone]
  unfold localHour localDay localSec
  by_cases hnext : 24 ≤ cur.sec%(24*60*60)/(60*60)+tz
  · simp only [if_pos hnext]
    rw [if_neg (by omega), Prod.mk.injEq]
    omega
  · simp only [if_neg hnext]
    split_ifs with hback
    · rw [Prod.mk.injEq]
      omega
    · rw [Prod.mk.injEq]
      omega

/-- A call in the second of the last one returns what is kept. -/
theorem getTime_hit (timeZone : ℕ) (h : g.sec = cur.sec) :
    getTime timeZone cur g = ({ g.info with msec := cur.nsec/(1000*1000)%2^16 }, g) := by
  rw [getTime, if_neg (not_not.mpr h)]

/-- An hour of the day. -/
theorem localHour_bounds (tz : ℤ) (cur : Timespec) : 0 ≤ localHour tz cur ∧
    localHour tz cur < 24 := by
  unfold localHour
  omega

/-- The parts that no cache is used for. -/
theorem parts_eq (tz : ℤ) (cur : Timespec) :
    cur.nsec/(1000*1000)%2^16 = (timeOf tz cur).msec ∧
      cur.sec%(24*60*60)%(60*60)/60%2^8 = (timeOf tz cur).min ∧
        cur.sec%(24*60*60)%(60*60)%60%2^8 = (timeOf tz cur).sec := by
  have hnsec := cur.nsec_nonneg
  have hlt := cur.nsec_lt
  simp only [timeOf, localSec]
  omega

/-- A call in another second keeps what it returns, and computes all of it but for
the day, which may be the one that is kept. -/
theorem getTime_miss (hlo : -12 ≤ tz) (hhi : tz ≤ 14) (h : g.sec ≠ cur.sec) :
    ∃ ti, getTime (zoneOf tz) cur g = (ti, ⟨cur.sec, ti⟩) ∧
      ti = { timeOf tz cur with
        day := if localHour tz cur = g.info.hour then g.info.day else dayNumber tz cur } := by
  obtain ⟨hmsec, hmin, hsec⟩ := parts_eq tz cur
  obtain ⟨hnonneg, hless⟩ := localHour_bounds tz cur
  have hhour : localHour tz cur%2^8 = localHour tz cur := by omega
  have hday : localDay tz cur-cur.sec/(24*60*60)+cur.sec/(24*60*60) = localDay tz cur := by omega
  refine ⟨_, by rw [getTime, if_pos h], ?_⟩
  simp only [hourAndDay_zone hlo hhi, hmsec, hmin, hsec, hhour, hday]
  by_cases hsame : localHour tz cur = g.info.hour
  · rw [if_neg (not_not.mpr hsame), if_pos hsame, ← hsame]
    rfl
  · rw [if_pos hsame, if_neg hsame]
    rfl

/-- The day decides whether the time is right. -/
theorem eq_timeOf_iff (d : ℤ) : { timeOf tz cur with day := d } = timeOf tz cur ↔
    d = dayNumber tz cur := by
  constructor
  · intro h
    exact congrArg TimeInfo.day h
  · rintro rfl
    rfl

/-- What is returned for a clock reading is kept for it. -/
theorem keeps_timeOf (tz : ℤ) (cur : Timespec) : Keeps tz ⟨cur.sec, timeOf tz cur⟩ cur := ⟨rfl, rfl⟩

/-- The cached hour is that of the last call. -/
theorem Keeps.hour (h : Keeps tz g a) : g.info.hour = localHour tz a :=
  congrArg TimeInfo.hour h.info

/-- So is the cached day. -/
theorem Keeps.day (h : Keeps tz g a) : g.info.day = dayNumber tz a := congrArg TimeInfo.day h.info

/-- Readings in one second differ in the millisecond only. -/
theorem timeOf_same_sec (h : a.sec = b.sec) :
    { timeOf tz a with msec := (timeOf tz b).msec } = timeOf tz b := by
  simp only [timeOf, dayNumber, localDay, localHour, localSec, h]

/-- A call in another second is right exactly when in the hour that is kept it is on
the day that is kept, and the cache then belongs to its reading. -/
theorem getTime_right (hlo : -12 ≤ tz) (hhi : tz ≤ 14) (h : g.sec ≠ b.sec) :
    ((getTime (zoneOf tz) b g).1 = timeOf tz b ↔
      (localHour tz b = g.info.hour → g.info.day = dayNumber tz b)) ∧
      ((localHour tz b = g.info.hour → g.info.day = dayNumber tz b) →
        Keeps tz (getTime (zoneOf tz) b g).2 b) := by
  obtain ⟨ti, hget, hti⟩ := @getTime_miss tz b g hlo hhi h
  have hright : ti = timeOf tz b ↔
      (localHour tz b = g.info.hour → g.info.day = dayNumber tz b) := by
    rw [hti, eq_timeOf_iff, ite_eq_right_iff]
  rw [hget]
  refine ⟨hright, fun hday => ?_⟩
  rw [hright.mpr hday]
  exact keeps_timeOf tz b

/-- From a cache that belongs to a reading the next call is right exactly when it
is on the same day or in another hour, and the cache then belongs to its reading. -/
theorem getTime_keeps (hlo : -12 ≤ tz) (hhi : tz ≤ 14) (h : Keeps tz g a) :
    ((getTime (zoneOf tz) b g).1 = timeOf tz b ↔ SameHourSameDay tz a b) ∧
      (SameHourSameDay tz a b → Keeps tz (getTime (zoneOf tz) b g).2 b) := by
  by_cases hsec : g.sec = b.sec
  · have hab : a.sec = b.sec := h.sec.symm.trans hsec
    have hsame : SameHourSameDay tz a b := by
      intro _
      simp only [dayNumber, localDay, localSec, hab]
    have hinfo : { g.info with msec := (timeOf tz b).msec } = timeOf tz b := by
      rw [← timeOf_same_sec hab, ← h.info]
    rw [getTime_hit _ hsec, (parts_eq tz b).1]
    exact ⟨iff_of_true hinfo hsame, fun _ => ⟨hsec, hinfo⟩⟩
  · have hday : (localHour tz b = g.info.hour → g.info.day = dayNumber tz b) ↔
        SameHourSameDay tz a b := by
      rw [h.hour, h.day, eq_comm]
      rfl
    rw [← hday]
    exact getTime_right hlo hhi hsec

/-- The zeros kept at the start belong to a reading of second 0 without an offset. -/
theorem zero_eq_timeOf_iff (hlo : -12 ≤ tz) (hhi : tz ≤ 14) (h : 0 = b.sec) :
    { TimeCache.zero.info with msec := (timeOf tz b).msec } = timeOf tz b ↔ tz = 0 := by
  simp only [TimeCache.zero, timeOf, dayNumber, localDay, localHour, localSec, ← h,
    TimeInfo.mk.injEq, true_and]
  constructor
  · rintro ⟨hday, hhour, -⟩
    omega
  · rintro rfl
    decide

/-- At the first call the cache belongs to no reading. -/
theorem getTime_first (hlo : -12 ≤ tz) (hhi : tz ≤ 14) (b : Timespec) :
    ((getTime (zoneOf tz) b .zero).1 = timeOf tz b ↔ FirstCall tz b) ∧
      (FirstCall tz b → Keeps tz (getTime (zoneOf tz) b .zero).2 b) := by
  by_cases hsec : 0 = b.sec
  · have hright := zero_eq_timeOf_iff hlo hhi hsec
    have hfirst : FirstCall tz b ↔ tz = 0 :=
      ⟨fun hf => hf.1 hsec.symm, fun hz => ⟨fun _ => hz, fun hne => absurd hsec.symm hne⟩⟩
    rw [getTime_hit _ hsec, (parts_eq tz b).1, hfirst]
    exact ⟨hright, fun hz => ⟨hsec, hright.mpr hz⟩⟩
  · have hday : (localHour tz b = 0 → 0 = dayNumber tz b) ↔ FirstCall tz b := by
      constructor
      · intro h
        exact ⟨fun hz => absurd hz.symm hsec, fun _ hhour => (h hhour).symm⟩
      · intro hf hhour
        exact (hf.2 (Ne.symm hsec) hhour).symm
    rw [← hday]
    exact getTime_right hlo hhi hsec

/-- All calls of a run return the time of their own reading exactly when the first
does and none follows a call in the same hour of another day. -/
theorem getTime_run_iff (hlo : -12 ≤ tz) (hhi : tz ≤ 14) (calls : List Timespec) :
    feedAbs (getTime (zoneOf tz)) calls .zero = calls.map (timeOf tz) ↔
      (∀ a ∈ calls.head?, FirstCall tz a) ∧ calls.IsChain (SameHourSameDay tz) := by
  cases calls with
  | nil => exact iff_of_true rfl ⟨by simp, .nil⟩
  | cons a calls =>
    obtain ⟨hright, hkeeps⟩ := getTime_first hlo hhi a
    rw [feedAbs, List.map_cons, List.cons.injEq, hright]
    simp only [List.head?_cons, Option.mem_some_iff, forall_eq']
    exact and_congr_right fun hf =>
      feedAbs_eq_map_iff (fun _ _ _ => getTime_keeps hlo hhi) (hkeeps hf)

end Ucmq.LogTime
