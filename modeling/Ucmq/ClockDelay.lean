import Ucmq.PendingBodies

/-!
# Delays under any clock

The messages waiting under a name are those accepted and not yet returned, each
with the reading at which it was put. The age that a get compares with the delay
is an unsigned 32-bit difference, so a clock that was stepped back behind the put
makes a young message look old. Otherwise no message is returned before its
delay is over, and one held back stays first in line.
-/

namespace Ucmq.ClockDelay

open LabelledRun StoreConfig StoreMsg StoreState StoreManage QueueManage StoreInvariant ReadPath
open WritePath HandleFile Recovery Evhttp QueueStep QueueSlots RequestEffect ServerRun CleanRestart
open FifoRefinement RotationRuns DeliveryOrder UnreadCount CursorInvariant PendingBodies

/-- Clock reading at which an event is served. -/
def reading : Event → ℤ
  | .request sys _ => sys.now
  | .restart _ _ _ => 0

/-- Messages waiting under a name after one more event. -/
def waitingIn (n : String) (l : List (ℤ × List UInt8)) (e : Event × List Reply) :
    List (ℤ × List UInt8) :=
  if DeletedIn n e.1 then []
  else (l ++ (acceptedIn n e).map fun b => (reading e.1, storedBody b)).drop (returnedIn n e).length

/-- Readings and bodies of the messages accepted and not returned since the
queue of a name was deleted. -/
def waiting (n : String) (tr : History) : List (ℤ × List UInt8) := tr.foldl (waitingIn n) []

/-- A waiting message as it is stored: the reading becomes an unsigned 32-bit
value. -/
def stamped (x : ℤ × List UInt8) : ℕ × List UInt8 := ((x.1%2^32).toNat, x.2)

/-- A get of this queue is answered with this body, or with nothing while the
message looks too young. -/
structure FirstInLine (conf : UcmqConf) (st : Store) (T : ℤ) (b : List UInt8) : Prop where
  answers : ∀ sys ret st', sys.Ok → mqQmPopItem conf sys st = .ok (ret, st') →
    gotten ret = if tooYoung sys st.q.delay (T%2^32).toNat then [] else [b]
  served : WriterLive st → ∀ sys, sys.Ok → ∃ ret st', mqQmPopItem conf sys st = .ok (ret, st')

/-- A get at a reading returns only the first waiting message, and only when the
delay since its put is over; if it holds the message back, the message stays
first in line. -/
structure DelayHonoured (conf : UcmqConf) (delay : ℕ) (now : ℤ) (l : List (ℤ × List UInt8))
    (ret : QueueGetRet) (st' : Store) : Prop where
  due : ∀ b ∈ gotten ret, ∃ T rest, l = (T, b) :: rest ∧ T+delay ≤ now
  kept : gotten ret = [] → st'.q.unreadCount ≠ 0 → ∀ T b rest, l = (T, b) :: rest →
    FirstInLine conf st' T b

/-- Nothing is counted unread, or the clock is not behind the put of the first
waiting message, or so far behind it that their unsigned difference is still
below the delay. -/
def ClockKept (q : MqQueue) (now : ℤ) (l : List (ℤ × List UInt8)) : Prop :=
  q.unreadCount = 0 ∨ ∀ T b rest, l = (T, b) :: rest → T ≤ now ∨ (now-T)%2^32 < q.delay

variable {conf : UcmqConf} {sys : Sys} {st st' : Store} {finished pend : List (Msg conf)}
variable {n : String} {slot slot' : Slot} {ev : Event} {rs : List Reply} {l : List (ℤ × List UInt8)}
variable {banner : String} {tr : History} {s : Server} {ret : QueueGetRet}

/-- The name holds these waiting messages. -/
def Waits (conf : UcmqConf) (l : List (ℤ × List UInt8)) (slot : Slot) : Prop :=
  ∃ pend : List (Msg conf), Queued conf True pend slot ∧
    pend.map (fun m => (m.time, m.body)) = l.map stamped

/-- Puts are stored with the reading at which they are served. -/
theorem eventTime_eq (ev : Event) : eventTime ev = (reading ev%2^32).toNat := by
  cases ev <;> rfl

/-- Moved messages are the waiting messages after the event. -/
theorem stamped_waitingIn {pend' : List (Msg conf)} (hmoved : MessagesMoved n ev rs pend pend')
    (hl : pend.map (fun m => (m.time, m.body)) = l.map stamped) :
    pend'.map (fun m => (m.time, m.body)) = (waitingIn n l (ev, rs)).map stamped := by
  by_cases hdel : DeletedIn n ev
  · rw [waitingIn, if_pos hdel, hmoved.deleted hdel]
    rfl
  · obtain ⟨added, taken, heq, hadded, htaken⟩ := hmoved.kept hdel
    have hlen : taken.length = (returnedIn n (ev, rs)).length := by
      rw [← htaken, List.length_map]
    have hnew : added.map (fun m => (m.time, m.body)) =
        ((acceptedIn n (ev, rs)).map fun b => (reading ev, storedBody b)).map stamped := by
      rw [hadded, List.map_map, eventTime_eq]
      rfl
    have hall := congrArg (List.map fun m : Msg conf => (m.time, m.body)) heq
    rw [List.map_append, List.map_append, hl, hnew, ← List.map_append] at hall
    rw [waitingIn, if_neg hdel, List.map_drop, hall, ← hlen]
    exact (List.drop_left' (List.length_map _)).symm

/-- The first waiting message is followed through every event. -/
theorem waits_step (h : Waits conf l slot) (hg : RecordedRestarts conf ev n slot)
    (hstep : SlotStep conf queueOpts n ev rs slot slot') :
    Waits conf (waitingIn n l (ev, rs)) slot' := by
  obtain ⟨pend, hq, hl⟩ := h
  obtain ⟨pend', hq', hmoved⟩ := queued_step hq hstep (fun _ => trivial) (by
    rintro ⟨sys, names, listing, rfl⟩
    exact ⟨hg.1, fun _ => hg.2⟩)
  exact ⟨pend', hq', stamped_waitingIn hmoved hl⟩

/-- A name whose restarts find it recorded holds its waiting messages after every
run. -/
theorem waits_of_run
    (h : Run (serve banner) (Guarded queueOpts (ForName conf n (RecordedRestarts conf)))
      (Server.start conf) tr s) : ∃ slot, HasSlot s n slot ∧ Waits conf (waiting n tr) slot := by
  refine run_place (J := fun tr slot => Waits conf (waiting n tr) slot) (fun _ ho => ho)
    ⟨[], .free, rfl⟩ (fun ev rs slot slot' tr hJ hg hs => ?_) h
  have hnext : waiting n (tr ++ [(ev, rs)]) = waitingIn n (waiting n tr) (ev, rs) := by
    rw [waiting, List.foldl_append]
    rfl
  rw [hnext]
  exact waits_step hJ hg hs

/-- The age computed for a message is the unsigned difference of two readings. -/
theorem tooYoung_iff {delay : ℕ} (T : ℤ) (hd : 0 < delay) :
    tooYoung sys delay (T%2^32).toNat ↔ (sys.now-T)%2^32 < delay := by
  unfold tooYoung
  omega

/-- An unsigned difference never exceeds the time that has passed. -/
theorem due_of_not_tooYoung {delay : ℕ} {T : ℤ} (hd : 0 < delay) (hT : T ≤ sys.now)
    (hy : ¬tooYoung sys delay (T%2^32).toNat) : T+delay ≤ sys.now := by
  rw [tooYoung_iff T hd] at hy
  omega

/-- The oldest message of a sound queue that counts it is first in line. -/
theorem firstInLine_of_sound {m : Msg conf} {T : ℤ} (h : Sound conf True st finished (m :: pend))
    (hl : Logged conf st finished) (hu : st.q.unreadCount ≠ 0) (ht : m.time = (T%2^32).toNat) :
    FirstInLine conf st T m.body := by
  constructor
  · intro sys ret st' hok hp
    have hres := popResult_of_sound h hl hok
    rw [hp] at hres
    cases hres with
    | none hz => exact absurd hz hu
    | young hm hs hlog hy =>
      rw [ht] at hy
      rw [if_pos hy]
      rfl
    | taken hm hpos hy hs hrec =>
      rw [ht] at hy
      rw [if_neg hy]
      simp [gotten]
  · intro hw sys hok
    have hres := popResult_of_sound h hl hok
    generalize mqQmPopItem conf sys st = res at hres
    cases hres with
    | fault hdead => exact absurd hw hdead
    | none hz => exact ⟨_, _, rfl⟩
    | young => exact ⟨_, _, rfl⟩
    | taken => exact ⟨_, _, rfl⟩

/-- The oldest message is the first waiting one. -/
theorem head_of_stamped {m : Msg conf} {rest : List (Msg conf)}
    (h : (m :: rest).map (fun m => (m.time, m.body)) = l.map stamped) :
    ∃ T l', l = (T, m.body) :: l' ∧ m.time = (T%2^32).toNat := by
  cases l with
  | nil => cases h
  | cons x l' =>
    obtain ⟨T, b⟩ := x
    have hhead := List.head_eq_of_cons_eq h
    obtain ⟨htime, hbody⟩ := Prod.mk.inj hhead
    exact ⟨T, l', by rw [hbody], htime⟩

/-- A get that finds nothing unread honours every delay. -/
theorem honoured_of_none {delay : ℕ} {now : ℤ} (hu : st.q.unreadCount = 0) :
    DelayHonoured conf delay now l .getEnd st :=
  ⟨List.forall_mem_nil _, fun _ hne => absurd hu hne⟩

/-- A get on a queue that holds the waiting messages honours the delay exactly
when the clock has not gone back too far. -/
theorem honoured_iff_of_waits (h : Waits conf l (.listed st)) (hok : sys.Ok) (hd : 0 < st.q.delay)
    (hp : mqQmPopItem conf sys st = .ok (ret, st')) :
    DelayHonoured conf st.q.delay sys.now l ret st' ↔ ClockKept st.q sys.now l := by
  obtain ⟨pend, hq, hl⟩ := h
  cases hq with
  | held hs hlog =>
    rcases hlog with hlog | ⟨-, rfl⟩
    swap
    · rw [popItem_of_none rfl] at hp
      cases hp
      exact ⟨fun _ => Or.inl rfl, fun _ => honoured_of_none rfl⟩
    have hres := popResult_of_sound hs hlog hok
    rw [hp] at hres
    cases hres with
    | none hz => exact ⟨fun _ => Or.inl hz, fun _ => honoured_of_none hz⟩
    | ended =>
      obtain rfl := List.map_eq_nil_iff.mp hl.symm
      exact ⟨fun _ => Or.inr (by simp), fun _ => ⟨List.forall_mem_nil _, fun _ _ => by simp⟩⟩
    | young hm hs' hl' hy =>
      obtain ⟨T, l', rfl, htime⟩ := head_of_stamped hl
      rw [htime] at hy
      constructor
      · rintro -
        refine Or.inr fun T' b rest heq => ?_
        cases heq
        exact Or.inr ((tooYoung_iff T hd).mp hy)
      · rintro -
        refine ⟨List.forall_mem_nil _, fun _ hu T' b rest heq => ?_⟩
        cases heq
        exact firstInLine_of_sound hs' hl' hu htime
    | @taken m _ _ _ _ hm hpos hy hs' hrec =>
      obtain ⟨T, l', rfl, htime⟩ := head_of_stamped hl
      rw [htime] at hy
      have hgot : gotten (.getOk m.item) = [m.body] := by simp [gotten]
      constructor
      · rintro ⟨hdue, -⟩
        obtain ⟨T', rest, heq, hle⟩ := hdue m.body (by rw [hgot]; exact List.mem_singleton_self _)
        cases heq
        refine Or.inr fun T' b rest heq => ?_
        cases heq
        exact Or.inl (by omega)
      · rintro (hz | hclock)
        · omega
        have hT : T ≤ sys.now :=
          (hclock T m.body l' rfl).resolve_right fun hlt => hy ((tooYoung_iff T hd).mpr hlt)
        refine ⟨fun b hb => ?_, fun hnone => ?_⟩
        · rw [hgot, List.mem_singleton] at hb
          exact ⟨T, l', by rw [hb], due_of_not_tooYoung hd hT hy⟩
        · rw [hgot] at hnone
          cases hnone

/-- A queue that counts its only waiting message returns it once it looks old
enough. -/
theorem popItem_of_waits {T : ℤ} {b : List UInt8} (h : Waits conf [(T, b)] (.listed st))
    (hu : st.q.unreadCount ≠ 0) (hw : WriterLive st) (hok : sys.Ok)
    (hy : ¬tooYoung sys st.q.delay (T%2^32).toNat) :
    ∃ item st', mqQmPopItem conf sys st = .ok (.getOk item, st') ∧ gotten (.getOk item) = [b] := by
  obtain ⟨pend, hq, hl⟩ := h
  cases hq with
  | held hs hlog =>
    rcases hlog with hlog | ⟨-, rfl⟩
    swap
    · exact absurd rfl hu
    cases pend with
    | nil => cases hl
    | cons m rest =>
      obtain ⟨T', l', heq, htime⟩ := head_of_stamped hl
      cases heq
      have hfirst := firstInLine_of_sound hs hlog hu htime
      obtain ⟨ret, st', hp⟩ := hfirst.served hw sys hok
      have hgot := hfirst.answers sys ret st' hok hp
      rw [if_neg hy] at hgot
      cases ret with
      | getEnd => cases hgot
      | getOk item => exact ⟨item, st', hp, hgot⟩

/-- A configuration in which new queues delay their messages by ten seconds. -/
def UcmqConf.delayed : UcmqConf := { UcmqConf.least with defDelay := 10, defDelay_lt := by decide }

/-- A run that puts one message at a given reading. -/
theorem run_put_at (T : ℤ) :
    ∃ tr s st, Run (serve "")
        (Guarded queueOpts (ForName UcmqConf.delayed "q" (RecordedRestarts UcmqConf.delayed)))
        (Server.start UcmqConf.delayed) tr s ∧
      HasSlot s "q" (.listed st) ∧ waiting "q" tr = [(T, [1])] ∧ st.q.delay = 10 ∧
      st.q.unreadCount ≠ 0 ∧ WriterLive st := by
  have hok := Sys.quiet_ok T 0
  have hfree : storageLow UcmqConf.delayed (Sys.quiet T 0) = false := rfl
  have hslot : HasSlot (Server.start UcmqConf.delayed) "q" (.absent none) := ⟨rfl, rfl⟩
  have hadd := addQueue_of_free (s := Server.start UcmqConf.delayed) hok hfree (by decide) "q"
  have hsame₀ := sameElsewhere_addQueue (Sys.quiet T 0) "q" (Server.start UcmqConf.delayed)
  rcases addQueue_of_absent hok hslot with ⟨hf, -⟩ | ⟨-, hs⟩
  · rw [hadd] at hf
    cases hf
  obtain ⟨hsound, hlive⟩ := sound_created UcmqConf.delayed
  obtain ⟨m, rs, s, s₁, s₂, hres, hout, hsame, hbody, hr, hrec, hslot'⟩ :=
    @entry_put_stored "q" "" _ (Request.of "put" "q" [1])
      (Server.start UcmqConf.delayed) _ _ 1 [1] _ _
      rfl rfl rfl (by decide) (by decide) (by decide) (touchQueue_of_added hslot hadd hs) hsame₀ hs
      hsound hlive (putOpen_of_unlimited rfl rfl) hok hfree
  have hnil : Run (serve "")
      (Guarded queueOpts (ForName UcmqConf.delayed "q" (RecordedRestarts UcmqConf.delayed)))
      (Server.start UcmqConf.delayed) [] (Server.start UcmqConf.delayed) := .nil
  have hrun := run_request hnil hok ⟨"put", by decide, rfl⟩ (fun _ _ _ =>
    ⟨storageKept_of_free hfree _ _ _, fun _ => trivial⟩) hres
  have hset := sameSettings_of_stored hr
  obtain ⟨-, hlive₁⟩ := sound_of_stored hsound hr
  refine ⟨_, s, _, hrun, hslot', ?_, ?_, ?_, hrec.writerLive hlive₁⟩
  · have hacc :=
      @acceptedIn_of_stored "q" rs (Sys.quiet T 0) (Request.of "put" "q" [1]) rfl rfl hout
    have hret := @returnedIn_put "q" rs (Sys.quiet T 0) (Request.of "put" "q" [1]) rfl
    have hkeep : ¬DeletedIn "q" (.request (Sys.quiet T 0) (Request.of "put" "q" [1])) := by
      rintro ⟨-, hdel⟩
      exact not_deletes ⟨"put", List.mem_singleton_self _, rfl⟩ (by decide) hdel
    show waitingIn "q" [] (.request (Sys.quiet T 0) (Request.of "put" "q" [1]), rs) = [(T, [1])]
    rw [waitingIn, if_neg hkeep, hacc, hret]
    rfl
  · show s₂.q.delay = 10
    rw [hrec.q]
    exact hset.delay
  · exact Nat.succ_ne_zero _

/-- After a run that puts one message at reading 100, a get to which it looks old
enough returns it. -/
theorem run_get_at {now : ℤ} (hy : ¬tooYoung (Sys.quiet now 0) 10 100) :
    ∃ tr s st ret st', Run (serve "")
        (Guarded queueOpts (ForName UcmqConf.delayed "q" (RecordedRestarts UcmqConf.delayed)))
        (Server.start UcmqConf.delayed) tr s ∧
      HasSlot s "q" (.listed st) ∧ waiting "q" tr = [(100, [1])] ∧ st.q.delay = 10 ∧
      mqQmPopItem UcmqConf.delayed (Sys.quiet now 0) st = .ok (ret, st') ∧ gotten ret = [[1]] := by
  obtain ⟨tr, s, st, hrun, hslot, hwait, hd, hu, hw⟩ := run_put_at 100
  obtain ⟨slot, hslot', hwaits⟩ := waits_of_run hrun
  obtain rfl := hasSlot_unique hslot hslot'
  rw [hwait] at hwaits
  obtain ⟨item, st', hp, hgot⟩ :=
    popItem_of_waits hwaits hu hw (Sys.quiet_ok now 0) (by rw [hd]; exact hy)
  exact ⟨tr, s, st, _, st', hrun, hslot, hwait, hd, hp, hgot⟩

/-- After every run, a get honours the delay in force exactly when the clock has
not gone back too far behind the first waiting message. -/
theorem delay_honoured_iff
    (h : Run (serve banner) (Guarded queueOpts (ForName conf n (RecordedRestarts conf)))
      (Server.start conf) tr s) (hslot : HasSlot s n (.listed st)) (hd : 0 < st.q.delay)
        (hok : sys.Ok)
    (hp : mqQmPopItem conf sys st = .ok (ret, st')) :
    DelayHonoured conf st.q.delay sys.now (waiting n tr) ret st' ↔
      ClockKept st.q sys.now (waiting n tr) := by
  obtain ⟨slot, hslot', hwaits⟩ := waits_of_run h
  obtain rfl := hasSlot_unique hslot hslot'
  exact honoured_iff_of_waits hwaits hok hd hp

/-- A message put at reading 100 and read at reading 110, with a delay of ten. -/
theorem delay_honoured_on_time :
    ∃ tr s st ret st', Run (serve "")
        (Guarded queueOpts (ForName UcmqConf.delayed "q" (RecordedRestarts UcmqConf.delayed)))
        (Server.start UcmqConf.delayed) tr s ∧
      HasSlot s "q" (.listed st) ∧ waiting "q" tr = [(100, [1])] ∧ st.q.delay = 10 ∧
      mqQmPopItem UcmqConf.delayed (Sys.quiet 110 0) st = .ok (ret, st') ∧ gotten ret = [[1]] ∧
      DelayHonoured UcmqConf.delayed st.q.delay 110 (waiting "q" tr) ret st' := by
  obtain ⟨tr, s, st, ret, st', hrun, hslot, hwait, hd, hp, hgot⟩ := @run_get_at 110 (by decide)
  refine ⟨tr, s, st, ret, st', hrun, hslot, hwait, hd, hp, hgot, ?_⟩
  refine (delay_honoured_iff hrun hslot (by omega) (Sys.quiet_ok 110 0) hp).mpr (Or.inr ?_)
  intro T b rest heq
  rw [hwait] at heq
  cases heq
  exact Or.inl (by decide)

/-- A message put at reading 100 is returned at reading 99, with a delay of ten. -/
theorem returned_early :
    ∃ tr s st ret st', Run (serve "")
        (Guarded queueOpts (ForName UcmqConf.delayed "q" (RecordedRestarts UcmqConf.delayed)))
        (Server.start UcmqConf.delayed) tr s ∧
      HasSlot s "q" (.listed st) ∧ waiting "q" tr = [(100, [1])] ∧ st.q.delay = 10 ∧
      mqQmPopItem UcmqConf.delayed (Sys.quiet 99 0) st = .ok (ret, st') ∧ gotten ret = [[1]] ∧
      ¬DelayHonoured UcmqConf.delayed st.q.delay 99 (waiting "q" tr) ret st' := by
  obtain ⟨tr, s, st, ret, st', hrun, hslot, hwait, hd, hp, hgot⟩ := @run_get_at 99 (by decide)
  refine ⟨tr, s, st, ret, st', hrun, hslot, hwait, hd, hp, hgot, ?_⟩
  rintro ⟨hdue, -⟩
  obtain ⟨T, rest, heq, hle⟩ := hdue [1] (by rw [hgot]; exact List.mem_singleton_self _)
  rw [hwait] at heq
  cases heq
  rw [hd] at hle
  exact absurd hle (by decide)

end Ucmq.ClockDelay
