import Mathlib.Data.List.ReduceOption
import Ucmq.LogTime
import Ucmq.RetriedSwitch

/-!
# A log file for every day

log_write_impl gives a line the time of get_time and opens a file when the day is
not that of the open one. A line of a new day that get_time gives an earlier day has
the wrong time and goes to the earlier file. Lines have their own times and the first
line of each day a new file exactly when no call of get_time meets a cache of
another day, and no two days of the run have one number of 16 bits.
-/

namespace Ucmq.DailyLog

open LabelledRun LogTime RetriedSwitch

/-- Log configuration. -/
structure LogConfig where
  /-- Lowest level that is written. -/
  logLevel : ℕ
  /-- Local time zone, an unsigned int. -/
  timeZone : ℕ

/-- A call of the logger. -/
structure LogMessage where
  level : ℕ
  /-- The clock at the call. -/
  now : Timespec

/-- The logger between calls. -/
structure Log where
  hasInit : Bool
  cache : TimeCache
  /-- Day of the open file, -1 before the first one. -/
  lastDay : ℤ
  /-- Number of calls of open_log so far. -/
  tries : ℕ

/-- A line of the log. -/
structure LogLine where
  now : Timespec
  /-- Time of the line. -/
  time : TimeInfo
  /-- open_log is called before the line is written. -/
  opens : Bool

/-- What decides on the next file. -/
def Log.switch (s : Log) : Switch ℤ := ⟨s.lastDay, s.tries⟩

/-- The logger after log_init. -/
def Log.start : Log := ⟨true, .zero, -1, 0⟩

/-- Write a message, with the outcomes of open_log as they come. -/
def logWriteImpl (conf : LogConfig) (opens : ℕ → Bool) (m : LogMessage) (s : Log) :
    Option LogLine × Log :=
  if m.level < conf.logLevel then (none, s)
  else
    let r := getTime conf.timeZone m.now s.cache
    let s := { s with cache := r.2 }
    if s.hasInit ∧ r.1.day ≠ s.lastDay then
      let lastDay := if opens s.tries then r.1.day else s.lastDay
      (some ⟨m.now, r.1, true⟩, { s with lastDay := lastDay, tries := s.tries+1 })
    else (some ⟨m.now, r.1, false⟩, s)

/-- The lines that the logger writes from a state on. -/
def logLines (conf : LogConfig) (opens : ℕ → Bool) (msgs : List LogMessage) (s : Log) :
    List LogLine :=
  (feedAbs (logWriteImpl conf opens) msgs s).reduceOption

/-- The lines of a run of the process. -/
def runLines (tz : ℤ) (logLevel : ℕ) (opens : ℕ → Bool) (msgs : List LogMessage) : List LogLine :=
  logLines ⟨logLevel, zoneOf tz⟩ opens msgs .start

/-- The clock readings at which get_time is called. -/
def calls (logLevel : ℕ) (msgs : List LogMessage) : List Timespec :=
  (msgs.filter fun m => logLevel ≤ m.level).map LogMessage.now

/-- Every call of get_time returns the time of its own reading, and the first line
of each day opens a file, whatever becomes of the earlier tries. -/
structure IsDailyLog (tz : ℤ) (logLevel : ℕ) (msgs : List LogMessage) : Prop where
  times : ∀ opens, (runLines tz logLevel opens msgs).map LogLine.time =
    (calls logLevel msgs).map (timeOf tz)
  files : ∀ opens pre l post, runLines tz logLevel opens msgs = pre ++ l :: post →
    (∀ k ∈ pre, localDay tz k.now ≠ localDay tz l.now) → l.opens = true

/-- No call meets a cache of another day, and no two days have one number. -/
structure CacheKept (tz : ℤ) (as : List Timespec) : Prop where
  first : ∀ a ∈ as.head?, FirstCall tz a
  next : as.IsChain (SameHourSameDay tz)
  days : ∀ a ∈ as, ∀ b ∈ as, dayNumber tz a = dayNumber tz b → localDay tz a = localDay tz b

variable {tz : ℤ} {logLevel : ℕ} {conf : LogConfig} {opens : ℕ → Bool} {m : LogMessage}
  {msgs : List LogMessage} {s : Log}

/-- A message of a lower level leaves no line. -/
theorem logLines_low (h : m.level < conf.logLevel) :
    logLines conf opens (m :: msgs) s = logLines conf opens msgs s := by
  rw [logLines, feedAbs, logWriteImpl, if_pos h, List.reduceOption_cons_of_none]
  rfl

/-- Another one is given the time of get_time, whose day is the key of a switch. -/
theorem logWriteImpl_high (h : ¬m.level < conf.logLevel) (hinit : s.hasInit = true)
    {r : TimeInfo × TimeCache} (hr : getTime conf.timeZone m.now s.cache = r)
    {o : Bool × Switch ℤ} (ho : switchStep opens r.1.day s.switch = o) :
    logWriteImpl conf opens m s = (some ⟨m.now, r.1, o.1⟩, ⟨true, r.2, o.2.key, o.2.tries⟩) := by
  rw [logWriteImpl, if_neg h]
  simp only [hr]
  by_cases hday : r.1.day = s.lastDay
  · rw [switchStep_kept (s := s.switch) hday] at ho
    rw [if_neg (not_and_of_not_right _ (not_not.mpr hday)), ← ho, hinit]
    rfl
  · rw [switchStep_new (s := s.switch) hday] at ho
    rw [if_pos ⟨hinit, hday⟩, ← ho, hinit]
    rfl

/-- A message below the level asks for no line. -/
theorem calls_low (h : m.level < logLevel) : calls logLevel (m :: msgs) = calls logLevel msgs := by
  rw [calls, List.filter_cons_of_neg (by simpa using h)]
  rfl

/-- Another one asks for a line at its time. -/
theorem calls_high (h : ¬m.level < logLevel) :
    calls logLevel (m :: msgs) = m.now :: calls logLevel msgs := by
  rw [calls, List.filter_cons_of_pos (by simpa using h)]
  rfl

/-- The lines of a run have the readings of the calls, the times of get_time, and
the switches that the days of these times give. -/
theorem logLines_run (hinit : s.hasInit = true) :
    (logLines conf opens msgs s).map LogLine.now = calls conf.logLevel msgs ∧
    (logLines conf opens msgs s).map LogLine.time =
      feedAbs (getTime conf.timeZone) (calls conf.logLevel msgs) s.cache ∧
    (logLines conf opens msgs s).map LogLine.opens =
      feedAbs (switchStep opens) ((logLines conf opens msgs s).map fun l => l.time.day)
        s.switch := by
  induction msgs generalizing s with
  | nil => exact ⟨rfl, rfl, rfl⟩
  | cons m msgs ih =>
    by_cases h : m.level < conf.logLevel
    · rw [logLines_low h, calls_low h]
      exact ih hinit
    · obtain ⟨r, hr⟩ : ∃ r, getTime conf.timeZone m.now s.cache = r := ⟨_, rfl⟩
      obtain ⟨o, ho⟩ : ∃ o, switchStep opens r.1.day s.switch = o := ⟨_, rfl⟩
      have hlines : logLines conf opens (m :: msgs) s =
          ⟨m.now, r.1, o.1⟩ :: logLines conf opens msgs ⟨true, r.2, o.2.key, o.2.tries⟩ := by
        rw [logLines, feedAbs, logWriteImpl_high h hinit hr ho, List.reduceOption_cons_of_some]
        rfl
      obtain ⟨hnow, htime, hopens⟩ := @ih ⟨true, r.2, o.2.key, o.2.tries⟩ rfl
      rw [hlines, calls_high h]
      simp only [List.map_cons, feedAbs, hr, ho]
      exact ⟨congrArg _ hnow, congrArg _ htime, congrArg _ hopens⟩

/-- A run writes a line for every call, each at its time. -/
theorem runLines_run (tz : ℤ) (logLevel : ℕ) (opens : ℕ → Bool) (msgs : List LogMessage) :
    (runLines tz logLevel opens msgs).map LogLine.now = calls logLevel msgs ∧
    (runLines tz logLevel opens msgs).map LogLine.time =
      feedAbs (getTime (zoneOf tz)) (calls logLevel msgs) .zero ∧
    (runLines tz logLevel opens msgs).map LogLine.opens =
      feedAbs (switchStep opens)
        ((runLines tz logLevel opens msgs).map fun l => l.time.day) ⟨-1, 0⟩ :=
  logLines_run rfl

/-- The times of the lines are right exactly when those of get_time are. -/
theorem times_iff (opens : ℕ → Bool) :
    (runLines tz logLevel opens msgs).map LogLine.time = (calls logLevel msgs).map (timeOf tz) ↔
      feedAbs (getTime (zoneOf tz)) (calls logLevel msgs) .zero =
        (calls logLevel msgs).map (timeOf tz) := by
  rw [(runLines_run tz logLevel opens msgs).2.1]

/-- Lines with their own times have the days of their readings. -/
theorem days_of_times (h : (runLines tz logLevel opens msgs).map LogLine.time =
    (calls logLevel msgs).map (timeOf tz)) :
    (runLines tz logLevel opens msgs).map (fun l => l.time.day) =
      (calls logLevel msgs).map (dayNumber tz) := by
  have hday := congrArg (List.map TimeInfo.day) h
  rwa [List.map_map, List.map_map] at hday

/-- In a run of right times a line opens a file when its day is new to the switch. -/
theorem opens_eq (h : (runLines tz logLevel opens msgs).map LogLine.time =
      (calls logLevel msgs).map (timeOf tz)) {pre post : List LogLine} {l : LogLine}
    (hl : runLines tz logLevel opens msgs = pre ++ l :: post) :
    l.opens = (switchStep opens (dayNumber tz l.now)
      (stateAfter (switchStep opens) ((pre.map LogLine.now).map (dayNumber tz)) ⟨-1, 0⟩)).1 := by
  obtain ⟨hnow, -, hopens⟩ := runLines_run tz logLevel opens msgs
  rw [days_of_times h, ← hnow, hl] at hopens
  simp only [List.map_append, List.map_cons] at hopens
  have hat := congrArg (fun os => os[pre.length]?) hopens
  have hlength : pre.length = ((pre.map LogLine.now).map (dayNumber tz)).length := by
    rw [List.length_map, List.length_map]
  rw [List.getElem?_append_right (by rw [List.length_map]), List.length_map, Nat.sub_self,
    List.getElem?_cons_zero, hlength, feedAbs_at] at hat
  exact Option.some.inj hat

/-- No day has the number of a cache that is empty. -/
theorem dayNumber_ne (tz : ℤ) (a : Timespec) : dayNumber tz a ≠ -1 := by
  unfold dayNumber
  omega

/-- A call is given a new file whatever becomes of the earlier tries exactly when no
call before has its day number. -/
theorem opened_iff_new (tz : ℤ) (pre : List Timespec) (a : Timespec) :
    (∀ opens, (switchStep opens (dayNumber tz a)
      (stateAfter (switchStep opens) (pre.map (dayNumber tz)) ⟨-1, 0⟩)).1 = true) ↔
      dayNumber tz a ∉ pre.map (dayNumber tz) := by
  refine tried_iff_new (fun hmem => ?_) (dayNumber_ne tz a)
  obtain ⟨b, -, hb⟩ := List.mem_map.mp hmem
  exact dayNumber_ne tz b hb

/-- In runs of right times the first line of each day opens a file exactly when no
two days have one number. -/
theorem files_iff (h : ∀ opens, (runLines tz logLevel opens msgs).map LogLine.time =
      (calls logLevel msgs).map (timeOf tz)) :
    (∀ opens pre l post, runLines tz logLevel opens msgs = pre ++ l :: post →
      (∀ k ∈ pre, localDay tz k.now ≠ localDay tz l.now) → l.opens = true) ↔
    ∀ a ∈ calls logLevel msgs, ∀ b ∈ calls logLevel msgs,
      dayNumber tz a = dayNumber tz b → localDay tz a = localDay tz b := by
  have hnow : ∀ opens, (runLines tz logLevel opens msgs).map LogLine.now = calls logLevel msgs :=
    fun opens => (runLines_run tz logLevel opens msgs).1
  have hnum : ∀ a b, localDay tz a = localDay tz b → dayNumber tz a = dayNumber tz b := by
    intro a b hab
    rw [dayNumber, dayNumber, hab]
  rw [same_class_iff_first hnum]
  constructor
  · intro hfiles pre a post hcalls hfirst
    rw [← opened_iff_new]
    intro opens
    obtain ⟨as, bs, hlines, rfl, hbs⟩ := List.map_eq_append_iff.mp ((hnow opens).trans hcalls)
    obtain ⟨l, cs, rfl, rfl, -⟩ := List.map_eq_cons_iff.mp hbs
    rw [← opens_eq (h opens) hlines]
    exact hfiles opens as l cs hlines fun k hk => hfirst k.now (List.mem_map.mpr ⟨k, hk, rfl⟩)
  · intro hdays opens pre l post hlines hfirst
    have hcalls : calls logLevel msgs = pre.map LogLine.now ++ l.now :: post.map LogLine.now := by
      rw [← hnow opens, hlines, List.map_append, List.map_cons]
    have hnew := hdays _ _ _ hcalls fun b hb => by
      obtain ⟨k, hk, rfl⟩ := List.mem_map.mp hb
      exact hfirst k hk
    rw [opens_eq (h opens) hlines]
    exact (opened_iff_new tz _ _).mpr hnew opens

/-- Every line has its own time and every day its own file exactly when no call of
get_time meets a cache of another day and no two days have one number. -/
theorem dailyLog_iff (hlo : -12 ≤ tz) (hhi : tz ≤ 14) (logLevel : ℕ) (msgs : List LogMessage) :
    IsDailyLog tz logLevel msgs ↔ CacheKept tz (calls logLevel msgs) := by
  have hrun := getTime_run_iff hlo hhi (calls logLevel msgs)
  constructor
  · rintro ⟨htimes, hfiles⟩
    obtain ⟨hfirst, hnext⟩ := hrun.mp ((times_iff fun _ => true).mp (htimes _))
    exact ⟨hfirst, hnext, (files_iff htimes).mp hfiles⟩
  · rintro ⟨hfirst, hnext, hdays⟩
    have htimes : ∀ opens, (runLines tz logLevel opens msgs).map LogLine.time =
        (calls logLevel msgs).map (timeOf tz) :=
      fun opens => (times_iff opens).mpr (hrun.mpr ⟨hfirst, hnext⟩)
    exact ⟨htimes, (files_iff htimes).mpr hdays⟩

/-- 2024-01-01, 10:00:00.000 at offset 0. -/
def monday : Timespec := ⟨1704103200, 0, by decide, by decide, by decide⟩

/-- 2024-01-02, 10:30:00.250 at offset 0. -/
def tuesday : Timespec := ⟨1704191400, 250000000, by decide, by decide, by decide⟩

/-- 2024-01-02, 11:00:00.000 at offset 0. -/
def tuesdayNext : Timespec := ⟨1704193200, 0, by decide, by decide, by decide⟩

/-- A log that goes on at another hour of the next day is daily. -/
theorem dailyLog_next_hour :
    IsDailyLog 8 100 [⟨100, monday⟩, ⟨10, tuesday⟩, ⟨100, tuesdayNext⟩] := by
  refine (dailyLog_iff (by decide) (by decide) _ _).mpr ⟨?_, ?_, ?_⟩
  · rintro a ha
    obtain rfl : monday = a := Option.some.inj ha
    exact ⟨by decide, by decide⟩
  · refine .cons_cons ?_ (.singleton _)
    unfold SameHourSameDay
    decide
  · decide

/-- After a day without a line the hour is the kept one, and the line of the next day
has the day of the one before and no file. -/
theorem next_day_in_old_file : monday.sec ≤ tuesday.sec ∧
    localDay 0 monday = 19723 ∧ localDay 0 tuesday = 19724 ∧
    (runLines 0 100 (fun _ => true) [⟨100, monday⟩, ⟨100, tuesday⟩]).map
      (fun l => (l.time.day, l.opens)) = [(19723, true), (19723, false)] ∧
    ¬IsDailyLog 0 100 [⟨100, monday⟩, ⟨100, tuesday⟩] := by
  refine ⟨by decide, by decide, by decide, by decide, fun h => ?_⟩
  exact absurd (h.times fun _ => true) (by decide)

end Ucmq.DailyLog
