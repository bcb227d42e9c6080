import Ucmq.OutputTrace
import Ucmq.PlacedLog
import Ucmq.ReadTermination
import Ucmq.WritePath

/-!
# The reader as a walk over file contents

Reading with no delay is determined by the contents of the files and the two
cursors. Inside of a file the reader steps over single bytes, over headers that
do not check out and over messages, whatever the bytes are, and leaves the file
at the first header that announces an end beyond it. Repeated gets deliver the
outputs of this walk, each from the place where the walk found it.
-/

namespace Ucmq.FileWalk

open ByteRegion FramedLog OutputTrace PlacedLog DecimalText StoreConfig StoreMsg StoreState
open StoreRtag StoreFile StoreManage StoreInvariant ReadPath WritePath MapReads ReadTermination

/-- One step inside of a file: a message, a byte that starts none, or a header
that does not check out. There is no step from a header that leads out. -/
def fileStep (conf : UcmqConf) (d : Region) (p : ℕ) : Option (Option MsgItem × ℕ) :=
  match mqSmDbParseMsg conf (some d) p with
  | .ok item => some (some item, p+(12+item.len))
  | .magNumErr => some (none, p+1)
  | .parseErr => some (none, p+2)
  | .crcErr => some (none, p+2)
  | .msgErr => none
  | .lenBey => none

/-- One step of a reader over the files of a queue, from a file and an offset. -/
def readerStep (conf : UcmqConf) (seg : ℕ → Option Region) (w wpos : ℕ) (c : ℕ × ℕ) :
    Option (Option MsgItem × ℕ × ℕ) :=
  if c.1 = w ∧ wpos ≤ c.2+12 then none
  else (seg c.1).bind fun d =>
    match fileStep conf d c.2 with
    | some (b, q) => some (b, (c.1, q))
    | none => if c.1 < w then some (none, (c.1+1, 128)) else none

variable {conf : UcmqConf} {sys : Sys} {s s' : Store} {seg : ℕ → Option Region} {w wpos i p q : ℕ}
variable {c t : ℕ × ℕ} {d : Region} {b : Option MsgItem} {item : MsgItem}

/-- A check of mapped contents finds the mapping. -/
theorem parseMsg_ne_msgErr : mqSmDbParseMsg conf (some d) p ≠ .msgErr := by
  unfold mqSmDbParseMsg
  dsimp only
  split
  · simp
  · split
    · simp
    · split
      · simp
      · unfold checkMsgBody
        split
        · simp
        · split
          · simp
          · split <;> simp

/-- The walk stops at a header that leads out of the file. -/
theorem fileStep_eq_none : fileStep conf d p = none ↔ mqSmDbParseMsg conf (some d) p = .lenBey := by
  have hne := @parseMsg_ne_msgErr conf p d
  unfold fileStep
  split <;> simp_all

/-- Steps inside of a file move forward. -/
theorem fileStep_lt (h : fileStep conf d p = some (b, q)) : p < q := by
  unfold fileStep at h
  split at h <;> cases h <;> omega

/-- Steps inside of a file stay in it. -/
theorem fileStep_bounds (hp : p ≤ maxDbFileSize conf) (h : fileStep conf d p = some (b, q)) :
    p < q ∧ q ≤ maxDbFileSize conf := by
  refine ⟨fileStep_lt h, ?_⟩
  unfold fileStep at h
  split at h
  · rename_i hpar
    cases h
    have := end_le_of_parseMsg hp hpar
    omega
  · rename_i hpar
    cases h
    have := pos_lt_of_parse hp hpar ⟨by simp, by simp⟩
    omega
  · rename_i hpar
    cases h
    have := pos_lt_of_parse hp hpar ⟨by simp, by simp⟩
    omega
  · rename_i hpar
    cases h
    have := pos_lt_of_parse hp hpar ⟨by simp, by simp⟩
    omega
  · cases h
  · cases h

/-- The walk through a file ends. -/
theorem exists_fileTrace (hp : p ≤ maxDbFileSize conf) :
    ∃ o q, Trace (fileStep conf d) p o q ∧ fileStep conf d q = none :=
  exists_stopped (P := fun x => x ≤ maxDbFileSize conf) (fun x => maxDbFileSize conf-x)
    (fun x b t hx hstep => by
    have hbounds := fileStep_bounds hx hstep
    omega) hp

/-- The distance of a reader from the end of the last file. -/
def readerRank (conf : UcmqConf) (w : ℕ) (c : ℕ × ℕ) : ℕ :=
  (w-c.1)*(maxDbFileSize conf+1)+(maxDbFileSize conf-c.2)

/-- What a step of the reader is: inside of its file, or to the next one. -/
theorem readerStep_cases (h : readerStep conf seg w wpos c = some (b, t)) :
    ∃ d, seg c.1 = some d ∧ ¬(c.1 = w ∧ wpos ≤ c.2+12) ∧
      (t.1 = c.1 ∧ fileStep conf d c.2 = some (b, t.2) ∨
        fileStep conf d c.2 = none ∧ c.1 < w ∧ b = none ∧ t = (c.1+1, 128)) := by
  unfold readerStep at h
  split at h
  · cases h
  · rename_i hend
    obtain ⟨d, hd, h⟩ := Option.bind_eq_some_iff.mp h
    refine ⟨d, hd, hend, ?_⟩
    split at h
    · rename_i hstep
      cases h
      exact Or.inl ⟨rfl, hstep⟩
    · rename_i hstep
      split at h
      · rename_i hlt
        cases h
        exact Or.inr ⟨hstep, hlt, rfl, rfl⟩
      · cases h

/-- Every step of the reader brings it closer to the end. -/
theorem readerStep_rank (hc : c.2 ≤ maxDbFileSize conf)
    (h : readerStep conf seg w wpos c = some (b, t)) :
    t.2 ≤ maxDbFileSize conf ∧ readerRank conf w t < readerRank conf w c := by
  have hmin := le_maxDbFileSize conf
  obtain ⟨d, -, -, ⟨hi, hstep⟩ | ⟨-, hlt, -, rfl⟩⟩ := readerStep_cases h
  · have hq := fileStep_bounds hc hstep
    refine ⟨hq.2, ?_⟩
    rw [readerRank, readerRank, hi]
    omega
  · refine ⟨by simp only; omega, ?_⟩
    obtain ⟨k, hk⟩ : ∃ k, w = c.1+1+k := ⟨w-(c.1+1), by omega⟩
    have h₁ : w-(c.1+1) = k := by omega
    have h₂ : w-c.1 = k+1 := by omega
    simp only [readerRank, h₁, h₂, Nat.add_mul]
    omega

/-- Walking inside of a file is what the reader does there. -/
theorem trace_of_fileTrace {o : List (ℕ × MsgItem)} (hs : seg i = some d)
    (h : Trace (fileStep conf d) q o p) (hlim : i = w → p+12 ≤ wpos) :
    Trace (readerStep conf seg w wpos) (i, q) (o.map fun x => ((i, x.1), x.2)) (i, p) := by
  have hstep : ∀ x b t, t ≤ p → fileStep conf d x = some (b, t) →
      x ≤ p ∧ readerStep conf seg w wpos (i, x) = some (b, (i, t)) := by
    intro x b t ht hx
    have hlt := fileStep_lt hx
    refine ⟨by omega, ?_⟩
    rw [readerStep, if_neg (by rintro ⟨hi, hle⟩; have := hlim hi; simp only at hle; omega), hs,
      Option.bind_some, hx]
  simpa only [List.map_map] using (h.map hstep le_rfl).2

/-- A walk of the reader does not return to a file. -/
theorem index_le_of_trace {o : List ((ℕ × ℕ) × MsgItem)}
    (h : Trace (readerStep conf seg w wpos) c o t) : c.1 ≤ t.1 := by
  have hstep : ∀ {c x t}, readerStep conf seg w wpos c = some (x, t) → c.1 ≤ t.1 := by
    intro c x t hs
    obtain ⟨-, -, -, ⟨hi, -⟩ | ⟨-, -, -, rfl⟩⟩ := readerStep_cases hs
    · exact hi.ge
    · exact Nat.le_succ _
  induction h with
  | nil => exact le_rfl
  | silent hs _ ih => exact (hstep hs).trans ih
  | emit hs _ ih => exact (hstep hs).trans ih

/-- A reader with no delay whose files hold the given contents. -/
structure Reading (conf : UcmqConf) (seg : ℕ → Option Region) (w wpos : ℕ) (c : ℕ × ℕ) (s : Store) :
    Prop where
  ready : Readable conf s
  live : WriterLive s
  delay : s.q.delay = 0
  index : s.q.curRdb.curIndex = c.1
  pos : s.q.curRdb.pos = c.2
  pos_le : c.2 ≤ maxDbFileSize conf
  windex : s.q.curWdb.curIndex = w
  wpos : s.q.curWdb.pos = wpos
  content : ∀ j, c.1 ≤ j → j ≤ w → dbSeg conf s.dir.db j = seg j

/-- Moving the read position keeps a queue readable. -/
theorem readable_setReadPos (h : Readable conf s) (hp : p < 2^32) :
    Readable conf (setReadPos s p) :=
  ⟨h.held.congr rfl ⟨rfl, rfl, rfl⟩ ⟨rfl, rfl, rfl⟩, h.log, h.rtags,
    ⟨h.typed.rcount, hp, h.typed.wpos, h.typed.maxqueue, h.typed.delay, h.typed.wlock_ge,
      h.typed.wlock_lt⟩, h.index_le, h.files⟩

/-- So does taking a message. -/
theorem readable_takeMsg (h : Readable conf s) (len : ℕ) : Readable conf (takeMsg s len) :=
  ⟨h.held.congr rfl ⟨rfl, rfl, rfl⟩ ⟨rfl, rfl, rfl⟩, h.log, h.rtags,
    ⟨u32_lt _, u32_lt _, h.typed.wpos, h.typed.maxqueue, h.typed.delay, h.typed.wlock_ge,
      h.typed.wlock_lt⟩, h.index_le, h.files⟩

/-- After a read switch the later files can still be read. -/
theorem readable_of_switched (h : Readable conf s) (hsw : ReadSwitched s s')
    (hlt : s.q.curRdb.curIndex < s.q.curWdb.curIndex) : Readable conf s' := by
  have hw : s'.q.curWdb = s.q.curWdb := by rw [hsw.q]
  refine ⟨hsw.held, hsw.log, ?_, ?_, by rw [hsw.index, hw]; omega, ?_⟩
  · intro j hj
    rw [hsw.index]
    by_contra hne
    rw [hsw.rtag] at hj
    by_cases hold : j = s.q.curRdb.curIndex
    · simp [hold] at hj
    · rw [Function.update_of_ne hold, Function.update_of_ne hne] at hj
      exact hold (h.rtags j hj)
  · have hq := hsw.q
    refine ⟨?_, ?_, ?_, ?_, ?_, ?_, ?_⟩
    · show s'.q.curRdb.optCount < 2^32
      rw [hsw.optCount]
      decide
    · show s'.q.curRdb.pos < 2^32
      rw [hsw.pos]
      decide
    all_goals rw [rtagItem, hq]
    · exact h.typed.wpos
    · exact h.typed.maxqueue
    · exact h.typed.delay
    · exact h.typed.wlock_ge
    · exact h.typed.wlock_lt
  · intro j hj hjw
    rw [hsw.index] at hj
    rw [hw] at hjw
    obtain ⟨d, hd⟩ := h.files j (by omega) hjw
    have hsame : s'.dir.db j = s.dir.db j := by rw [hsw.db, Function.update_of_ne (by omega)]
    exact ⟨d, by rw [dbSeg_congr hsame, hd]⟩

/-- The queue with other contents in one data file. -/
def withData (conf : UcmqConf) (s : Store) (k : ℕ) (d : Region) : Store :=
  { s with dir := s.dir.setDb k (some ⟨maxDbFileSize conf, d⟩) }

/-- Contents of the data files after one was overwritten. -/
theorem dbSeg_withData (k j : ℕ) :
    dbSeg conf (withData conf s k d).dir.db j = if j = k then some d
      else dbSeg conf s.dir.db j := by
  by_cases hj : j = k
  · rw [if_pos hj, hj]
    exact dbSeg_update_self k d
  · rw [if_neg hj]
    exact dbSeg_congr (Function.update_of_ne hj _ _)

/-- Replacing contents keeps the files readable. -/
theorem readable_withData (h : Readable conf s) : Readable conf (withData conf s k d) := by
  refine ⟨h.held.congr rfl ⟨rfl, rfl, rfl⟩ ⟨rfl, rfl, rfl⟩, h.log, h.rtags, h.typed, h.index_le, ?_⟩
  intro j hj hw
  rw [dbSeg_withData]
  split
  · exact ⟨d, rfl⟩
  · exact h.files j hj hw

/-- What one iteration of the read loop does when the files hold the given
contents. -/
inductive StepOf (conf : UcmqConf) (seg : ℕ → Option Region) (w wpos : ℕ) (c : ℕ × ℕ) (s : Store) :
    Except Fault GetStep → Prop
  | stop {s' : Store} (hs : readerStep conf seg w wpos c = none) :
      StepOf conf seg w wpos c s (.ok (.done none s'))
  | silent {t : ℕ × ℕ} {s' : Store} (hs : readerStep conf seg w wpos c = some (none, t))
      (h : Reading conf seg w wpos t s') : StepOf conf seg w wpos c s (.ok (.again s'))
  | emit {item : MsgItem} {t : ℕ × ℕ} (hs : readerStep conf seg w wpos c = some (some item, t))
      (h : Reading conf seg w wpos t (takeMsg s item.len)) (hi : t.1 = c.1)
      (hp : t.2 = c.2+(12+item.len)) :
      StepOf conf seg w wpos c s (.ok (.done (some item) (takeMsg s item.len)))

/-- The files a reader has moved past need not be looked at. -/
theorem Reading.switched (h : Reading conf seg w wpos c s) (hsw : ReadSwitched s s')
    (hlt : c.1 < w) :
    Reading conf seg w wpos (c.1+1, 128) s' := by
  have hmin := le_maxDbFileSize conf
  have hw : s'.q.curWdb = s.q.curWdb := by rw [hsw.q]
  have hi := h.index
  have hwi := h.windex
  refine ⟨readable_of_switched h.ready hsw (by omega), hsw.writer h.live, ?_, ?_, hsw.pos,
    by simp only; omega, by rw [hw, hwi], by rw [hw, h.wpos], ?_⟩
  · rw [hsw.q]
    exact h.delay
  · rw [hsw.index, hi]
  · intro j hj hjw
    simp only at hj
    have hsame : s'.dir.db j = s.dir.db j := by rw [hsw.db, Function.update_of_ne (by omega)]
    rw [dbSeg_congr hsame]
    exact h.content j (by omega) hjw

/-- The reader at another position of its file. -/
theorem Reading.setReadPos (h : Reading conf seg w wpos c s) (hp : p ≤ maxDbFileSize conf) :
    Reading conf seg w wpos (c.1, p) (setReadPos s p) := by
  have hmax := maxDbFileSize_le conf
  exact ⟨readable_setReadPos h.ready (by omega), h.live, h.delay, h.index, rfl, hp,
    h.windex, h.wpos, h.content⟩

/-- The reader behind a message. -/
theorem Reading.takeMsg (h : Reading conf seg w wpos c s) {len : ℕ}
    (hp : c.2+(12+len) ≤ maxDbFileSize conf) :
    Reading conf seg w wpos (c.1, c.2+(12+len)) (takeMsg s len) := by
  have hmax := maxDbFileSize_le conf
  refine ⟨readable_takeMsg h.ready len, h.live, h.delay, h.index, ?_, hp, h.windex,
    h.wpos, h.content⟩
  show u32 (s.q.curRdb.pos+(len+12)) = c.2+(12+len)
  rw [h.pos, u32_of_lt (by omega), Nat.add_comm len]

/-- A reader cannot leave the write file. -/
theorem getNextReadFile_last (h : s.q.curWdb.curIndex ≤ s.q.curRdb.curIndex) :
    ∃ s', getNextReadFile conf sys s = (false, s') := by
  unfold getNextReadFile
  dsimp only
  rw [if_pos (by omega)]
  exact ⟨_, rfl⟩

/-- The read loop steps as the walk does. -/
theorem step_of_reading (h : Reading conf seg w wpos c s) (hok : sys.Ok) :
    StepOf conf seg w wpos c s (getDataStep conf sys s) := by
  have hmax := maxDbFileSize_le conf
  have hple := h.pos_le
  have hi := h.index
  have hwi := h.windex
  have hile := h.ready.index_le
  have hend :
    (s.q.curRdb.curIndex = s.q.curWdb.curIndex ∧ s.q.curWdb.pos ≤ u32 (s.q.curRdb.pos+12)) ↔
      (c.1 = w ∧ wpos ≤ c.2+12) := by
    rw [h.index, h.windex, h.wpos, h.pos, u32_of_lt (by omega)]
  by_cases he : c.1 = w ∧ wpos ≤ c.2+12
  · rw [getDataStep, if_pos (hend.mpr he)]
    exact .stop (by rw [readerStep, if_pos he])
  rw [getDataStep, if_neg (hend.not.mpr he)]
  obtain ⟨d, hd, hv⟩ | ⟨hdead, -, -⟩ := view_of_readable h.ready
  · have hseg : seg c.1 = some d := by rw [← h.content c.1 le_rfl (by omega), ← hi, hd]
    have hinside : ∀ b q, fileStep conf d c.2 = some (b, q) →
        readerStep conf seg w wpos c = some (b, (c.1, q)) := by
      intro b q hf
      rw [readerStep, if_neg he, hseg, Option.bind_some, hf]
    have hbehind : fileStep conf d c.2 = none →
        readerStep conf seg w wpos c = if c.1 < w then some (none, (c.1+1, 128)) else none := by
      intro hf
      rw [readerStep, if_neg he, hseg, Option.bind_some, hf]
    have hbounds := @fileStep_bounds conf c.2
    simp only [hv, h.pos]
    have hmove : ∀ k, fileStep conf d c.2 = some (none, c.2+k) →
        StepOf conf seg w wpos c s (.ok (.again (StoreManage.setReadPos s (u32 (c.2+k))))) := by
      intro k hk
      have hb := hbounds hple hk
      rw [u32_of_lt (by omega)]
      exact .silent (hinside _ _ hk) (h.setReadPos hb.2)
    have hleave : fileStep conf d c.2 = none → ∃ ok s', getNextReadFile conf sys s = (ok, s') ∧
        StepOf conf seg w wpos c s (.ok (if ok then .again s' else .done none s')) := by
      intro hf
      by_cases hlt : c.1 < w
      · obtain ⟨s', hn, hsw⟩ := getNextReadFile_switched h.ready hok (by omega)
        exact ⟨true, s', hn, .silent ((hbehind hf).trans (if_pos hlt)) (h.switched hsw hlt)⟩
      · obtain ⟨s', hn⟩ := @getNextReadFile_last conf sys s (by omega)
        exact ⟨false, s', hn, .stop ((hbehind hf).trans (if_neg hlt))⟩
    cases hpar : mqSmDbParseMsg conf (some d) c.2 with
    | ok item =>
      have hf : fileStep conf d c.2 = some (some item, c.2+(12+item.len)) := by
        rw [fileStep, hpar]
      simp only
      rw [if_neg (by rw [h.delay]; exact fun hy => hy.1 rfl)]
      exact .emit (hinside _ _ hf) (h.takeMsg (hbounds hple hf).2) rfl rfl
    | magNumErr => exact hmove 1 (by rw [fileStep, hpar])
    | parseErr => exact hmove 2 (by rw [fileStep, hpar])
    | crcErr => exact hmove 2 (by rw [fileStep, hpar])
    | msgErr => exact absurd hpar parseMsg_ne_msgErr
    | lenBey =>
      obtain ⟨ok, s', hn, hs⟩ := hleave (by rw [fileStep, hpar])
      rw [hn]
      cases ok <;> exact hs
  · exact absurd h.live hdead.not_live

/-- The place from which the message of the last get was taken. -/
def deliveredAt (s : Store) (item : MsgItem) : ℕ × ℕ :=
  (s.q.curRdb.curIndex, s.q.curRdb.pos-(12+item.len))

/-- What a get returns when the files hold the given contents: the next output
of the walk, or nothing when the walk stops first. -/
inductive GetOf (conf : UcmqConf) (seg : ℕ → Option Region) (w wpos : ℕ) (c : ℕ × ℕ) :
    Except Fault (Option MsgItem × Store) → Prop
  | ended {t : ℕ × ℕ} {s' : Store} (h : Trace (readerStep conf seg w wpos) c [] t)
      (hs : readerStep conf seg w wpos t = none) : GetOf conf seg w wpos c (.ok (none, s'))
  | delivered {item : MsgItem} {t : ℕ × ℕ} {s' : Store}
      (h : Trace (readerStep conf seg w wpos) c [(deliveredAt s' item, item)] t)
      (hr : Reading conf seg w wpos t s') : GetOf conf seg w wpos c (.ok (some item, s'))

/-- A step without a message changes no result of a get. -/
theorem GetOf.of_silent {res : Except Fault (Option MsgItem × Store)}
    (hs : readerStep conf seg w wpos c = some (none, t)) (h : GetOf conf seg w wpos t res) :
    GetOf conf seg w wpos c res := by
  cases h with
  | ended h hstop => exact .ended (.silent hs h) hstop
  | delivered h hr => exact .delivered (.silent hs h) hr

/-- The loop of a get returns what the walk comes to. -/
theorem getOf_of_loop {fuel : ℕ} (h : Reading conf seg w wpos c s) (hok : sys.Ok)
    (hf : readDistance conf s < fuel) : GetOf conf seg w wpos c (getDataLoop conf sys fuel s) := by
  induction fuel generalizing s c with
  | zero => omega
  | succ fuel ih =>
    have hstep := step_of_reading h hok
    have hdec := @step_decreases conf sys s
    rw [getDataLoop]
    generalize getDataStep conf sys s = res at hstep hdec
    cases hstep with
    | stop hs => exact .ended (.nil c) hs
    | silent hs hr =>
      have hd := hdec (by rw [h.pos]; exact h.pos_le) rfl
      exact .of_silent hs (ih hr (by omega))
    | @emit item t hs hr hi hp =>
      have hat : deliveredAt (StoreManage.takeMsg s item.len) item = c := by
        have hpos := hr.pos
        have hidx := hr.index
        rw [deliveredAt, hpos, hidx, hi, hp, Nat.add_sub_cancel]
      exact .delivered (by rw [hat]; exact .emit hs (.nil t)) hr

/-- A get delivers the next output of the walk over the files. -/
theorem getOf_of_reading (h : Reading conf seg w wpos c s) (hok : sys.Ok) :
    GetOf conf seg w wpos c (mqSmGetData conf sys s) :=
  getOf_of_loop h hok (Nat.lt_succ_self _)

/-- The messages of repeated gets until one returns nothing, each with the place
it was taken from. No system call fails. -/
inductive Drains (conf : UcmqConf) : Store → List ((ℕ × ℕ) × MsgItem) → Prop
  | stop {s s' : Store} {sys : Sys} (hok : sys.Ok) (h : mqSmGetData conf sys s = .ok (none, s')) :
      Drains conf s []
  | more {s s' : Store} {sys : Sys} {item : MsgItem} {l : List ((ℕ × ℕ) × MsgItem)} (hok : sys.Ok)
      (h : mqSmGetData conf sys s = .ok (some item, s')) (hr : Drains conf s' l) :
      Drains conf s ((deliveredAt s' item, item) :: l)

variable {l o : List ((ℕ × ℕ) × MsgItem)}

/-- Repeated gets deliver the outputs of the walk until it stops. -/
theorem trace_of_drains (hd : Drains conf s l) (h : Reading conf seg w wpos c s) :
    ∃ t, Trace (readerStep conf seg w wpos) c l t ∧ readerStep conf seg w wpos t = none := by
  induction hd generalizing c with
  | stop hok hget =>
    have hof := getOf_of_reading h hok
    rw [hget] at hof
    cases hof with
    | ended htr hs => exact ⟨_, htr, hs⟩
  | more hok hget _ ih =>
    have hof := getOf_of_reading h hok
    rw [hget] at hof
    cases hof with
    | delivered htr hr =>
      obtain ⟨t, htr', hs⟩ := ih hr
      exact ⟨t, htr.trans htr', hs⟩

/-- Repeated gets come to an end: what holds when a get returns nothing, and
before a get when it holds after it, holds at the start. -/
theorem gets_induction {P : Store → Prop} (hok : sys.Ok)
    (hnone : ∀ s s', mqSmGetData conf sys s = .ok (none, s') → P s)
    (hsome : ∀ s s' item, mqSmGetData conf sys s = .ok (some item, s') → P s' → P s)
    (h : Reading conf seg w wpos c s) : P s := by
  induction hr : readerRank conf w c using Nat.strongRecOn generalizing s c with
  | _ n ih =>
    have hof := getOf_of_reading h hok
    generalize hget : mqSmGetData conf sys s = res at hof
    cases hof with
    | ended => exact hnone _ _ hget
    | @delivered item t s' htr hread =>
      have hlt : readerRank conf w t < readerRank conf w c :=
        htr.rank_lt (fun _ _ _ => readerStep_rank) h.pos_le (List.cons_ne_nil _ _)
      exact hsome _ _ _ hget (ih _ (by omega) hread rfl)

/-- Repeated gets come to an end. -/
theorem exists_drains (h : Reading conf seg w wpos c s) : ∃ l, Drains conf s l := by
  refine gets_induction (P := fun s => ∃ l, Drains conf s l) (Sys.quiet_ok 0 0)
    (fun _ _ hget => ⟨[], .stop (Sys.quiet_ok 0 0) hget⟩) ?_ h
  rintro s s' item hget ⟨l, hl⟩
  exact ⟨_, .more (Sys.quiet_ok 0 0) hget hl⟩

/-- What repeated gets deliver is what the walk delivers until it stops. -/
theorem drains_iff (h : Reading conf seg w wpos c s)
    (ho : Trace (readerStep conf seg w wpos) c o t) (ht : readerStep conf seg w wpos t = none) :
    Drains conf s l ↔ l = o := by
  have hdet : ∀ {l}, Drains conf s l → l = o := fun hl => by
    obtain ⟨t', htr, hs⟩ := trace_of_drains hl h
    exact (htr.unique ho hs ht).1
  refine ⟨hdet, ?_⟩
  rintro rfl
  obtain ⟨l', hl'⟩ := exists_drains h
  obtain rfl := hdet hl'
  exact hl'

end Ucmq.FileWalk
