import Ucmq.PendingBodies

/-!
# A process killed during a read switch

A read switch creates the next position log, writes its record, removes the old
log and removes the old data file. Killed before the first or after the last of
these, the queue is loaded with all its messages. With both logs in place it is
loaded when the directory lists the old one first and the bare name of the new
one does not exist in the working directory; the record left in the new log is
overwritten by the next switch. With the new log beside the old data file it is
never loaded.
-/

namespace Ucmq.ReadSwitchCrash

open FramedLog LabelledRun StoreConfig StoreMsg StoreState StoreRtag StoreFile StoreManage
open QueueManage StoreInvariant ReadPath WritePath HandleFile Recovery Evhttp QueueStep QueueSlots
open RequestEffect ServerRun CleanRestart UnreadCount PendingBodies

variable {conf : UcmqConf} {sys : Sys} {clean : Prop} {s s' : Store}
  {finished pend : List (Msg conf)}

/-- Record that a read switch writes to the new position log. -/
def switchItem (q : MqQueue) : RtagItem := { rtagItem q with rcount := 0, rpos := 128 }

/-- Effects of a read switch on the directory, in order. -/
def readSwitchEffects (s : Store) : List (Dir → Dir) :=
  let i := s.q.curRdb.curIndex
  [fun dir => dir.setRtag (i+1) (some ((dir.rtag (i+1)).getD [])),
    fun dir =>
      dir.setRtag (i+1) ((dir.rtag (i+1)).map fun t => writeText t 0 (rtagText (switchItem s.q))),
    fun dir => dir.setRtag i none,
    fun dir => dir.setDb i none]

/-- The record of a switch is in range. -/
theorem switchItem_typed {q : MqQueue} (h : (rtagItem q).Typed) : (switchItem q).Typed :=
  ⟨Nat.two_pow_pos 32,
    show 128 < 2^32 by omega, h.wpos, h.maxqueue, h.delay, h.wlock_ge, h.wlock_lt⟩

/-- A record written through a new descriptor starts the text of the log. -/
theorem rtagWriteItem_next (hok : sys.Ok) (site : RtagSite) (dir : Dir) (proc : Proc)
    {q : MqQueue} {i : ℕ} (hfd : q.rtagFd = some proc.next) (ht : (rtagItem q).Typed)
    (t : List Char) :
    (mqSmRtagWriteItem sys site ⟨dir.setRtag i (some t), proc.openFd (.rtag i false 0), q⟩).2 =
      ⟨dir.setRtag i (some (writeText t 0 (rtagText (rtagItem q)))),
        { proc.openFd (.rtag i false 61) with next := proc.next+1 }, q⟩ := by
  have hlen := length_rtagText ht
  have htake : (rtagText (rtagItem q)).take (sys.rtagWrite site) = rtagText (rtagItem q) := by
    rw [List.take_of_length_le]
    have := hok.rtagWrite site
    omega
  simp [mqSmRtagWriteItem, hfd, htake, hlen, Dir.setRtag, Proc.openFd]

/-- Record of a queue whose reader is being moved to the next file. -/
def switchQueue (s : Store) : MqQueue :=
  { s.q with rtagFd := some s.proc.next, curRdb := { s.q.curRdb with
    flag := false, curIndex := s.q.curRdb.curIndex+1, optCount := 0, pos := 128 } }

/-- Descriptors and mappings before the next read file is opened. -/
def switchProc (s : Store) : Proc :=
  (((s.proc.openFd (.rtag (s.q.curRdb.curIndex+1) false 61)).close s.q.rtagFd).munmap
    s.q.curRdb.mapMem).close s.q.curRdb.fd

/-- A read switch applies its effects in order, then opens the next read file. -/
theorem getNextReadFile_eq (hok : sys.Ok) (ht : (rtagItem s.q).Typed)
    (hlt : s.q.curRdb.curIndex < s.q.curWdb.curIndex) :
    getNextReadFile conf sys s = openReadFile conf sys (s.q.curRdb.curIndex+1)
      ⟨crashAfter (readSwitchEffects s) 4 s.dir, switchProc s, switchQueue s⟩ := by
  have hw := rtagWriteItem_next hok (.nextRead (s.q.curRdb.curIndex+1)) s.dir s.proc
    (q := switchQueue s) (i := s.q.curRdb.curIndex+1) rfl (switchItem_typed (q := s.q) ht)
    ((s.dir.rtag (s.q.curRdb.curIndex+1)).getD [])
  unfold getNextReadFile
  rw [if_neg (by omega)]
  simp only [mqSmRtagOpenNextFile, hok.rtagOpen, if_true]
  rw [show ({ s.q with rtagFd := some s.proc.next, curRdb := { s.q.curRdb with
    flag := false, curIndex := s.q.curRdb.curIndex+1, optCount := 0, pos := 128 } } : MqQueue) =
      switchQueue s from rfl, hw]
  simp only [unlinkFile, hok.unlink, if_true]
  simp [crashAfter, readSwitchEffects, Dir.setRtag, switchProc, Proc.openFd]
  rfl

/-- A queue with a position log left over for its next read file. -/
def withLog (s : Store) (t : List Char) : Store :=
  { s with dir := s.dir.setRtag (s.q.curRdb.curIndex+1) (some t) }

/-- The same queue, or one with a log left over that is no longer than a record. -/
inductive Leftover (s : Store) : Store → Prop
  | refl : Leftover s s
  | log {t : List Char} (ht : t.length ≤ 61) (hlt : s.q.curRdb.curIndex < s.q.curWdb.curIndex) :
      Leftover s (withLog s t)

/-- Leftover files change no field of the queue. -/
theorem Leftover.q_eq (h : Leftover s s') : s'.q = s.q := by
  cases h <;> rfl

/-- The next file has no log yet. -/
theorem next_log_none (h : Sound conf clean s finished pend) :
    s.dir.rtag (s.q.curRdb.curIndex+1) = none := by
  by_contra hne
  have := h.rtags _ hne
  omega

/-- A read switch overwrites the log left over. -/
theorem getNextReadFile_withLog (h : Sound conf clean s finished pend) (hok : sys.Ok)
    (hlt : s.q.curRdb.curIndex < s.q.curWdb.curIndex) {t : List Char} (ht : t.length ≤ 61) :
    getNextReadFile conf sys (withLog s t) = getNextReadFile conf sys s := by
  have hnone := next_log_none h
  have hlen := length_rtagText (switchItem_typed h.typed)
  have hdrop : t.drop 61 = [] := List.drop_eq_nil_of_le ht
  have hdir : crashAfter (readSwitchEffects (withLog s t)) 4 (withLog s t).dir =
      crashAfter (readSwitchEffects s) 4 s.dir := by
    simp [crashAfter, readSwitchEffects, withLog, Dir.setRtag, writeText, hnone, hlen, hdrop]
  rw [getNextReadFile_eq hok h.typed hlt,
    getNextReadFile_eq (s := withLog s t) hok h.typed hlt, hdir]
  rfl

/-- Outcomes of a read step that differ in a log left over at most. -/
inductive StepAlike : Except Fault GetStep → Except Fault GetStep → Prop
  | fault (e : Fault) : StepAlike (.error e) (.error e)
  | done {a b : Store} (ret : Option MsgItem) (h : Leftover a b) :
      StepAlike (.ok (.done ret a)) (.ok (.done ret b))
  | again {a b : Store} (h : Leftover a b) : StepAlike (.ok (.again a)) (.ok (.again b))

/-- A step is like itself. -/
theorem stepAlike_refl (x : Except Fault GetStep) : StepAlike x x := by
  cases x with
  | error e => exact .fault e
  | ok g =>
    cases g with
    | done ret a => exact .done ret .refl
    | again a => exact .again .refl

/-- A log left over makes no difference to a read step. -/
theorem getDataStep_leftover (h : Sound conf clean s finished pend) (hok : sys.Ok)
    (hlo : Leftover s s') :
    StepAlike (getDataStep conf sys s) (getDataStep conf sys s') := by
  cases hlo with
  | refl => exact stepAlike_refl _
  | @log t ht hlt =>
    have hnext := getNextReadFile_withLog h hok hlt ht
    have hview : (withLog s t).mapView conf (withLog s t).q.curRdb.mapMem =
        s.mapView conf s.q.curRdb.mapMem := rfl
    have hpos : (withLog s t).q.curRdb.pos = s.q.curRdb.pos := rfl
    unfold getDataStep
    rw [if_neg (by omega), if_neg (by simp only [withLog]; omega), hview, hpos]
    cases s.mapView conf s.q.curRdb.mapMem with
    | error e => exact .fault e
    | ok view =>
      simp only
      cases mqSmDbParseMsg conf view s.q.curRdb.pos with
      | ok item =>
        simp only
        by_cases hy : tooYoung sys s.q.delay item.delay
        · rw [if_pos hy, if_pos (show tooYoung sys (withLog s t).q.delay item.delay from hy)]
          exact .done none (.log ht hlt)
        · rw [if_neg hy, if_neg (show ¬tooYoung sys (withLog s t).q.delay item.delay from hy)]
          exact .done _ (.log (s := takeMsg s item.len) ht hlt)
      | magNumErr => exact .again (.log (s := setReadPos s _) ht hlt)
      | parseErr => exact .again (.log (s := setReadPos s _) ht hlt)
      | crcErr => exact .again (.log (s := setReadPos s _) ht hlt)
      | msgErr =>
        simp only [hnext]
        exact stepAlike_refl _
      | lenBey =>
        simp only [hnext]
        exact stepAlike_refl _

/-- Outcomes of a read that differ in a log left over at most. -/
inductive ReadAlike : Except Fault (Option MsgItem × Store) →
    Except Fault (Option MsgItem × Store) → Prop
  | fault (e : Fault) : ReadAlike (.error e) (.error e)
  | ok {a b : Store} (ret : Option MsgItem) (h : Leftover a b) :
      ReadAlike (.ok (ret, a)) (.ok (ret, b))

/-- A log left over makes no difference to the read loop. -/
theorem getDataLoop_leftover (h : Sound conf clean s finished pend) (hl : Logged conf s finished)
    (hok : sys.Ok) (hlo : Leftover s s') (fuel : ℕ) :
    ReadAlike (getDataLoop conf sys fuel s) (getDataLoop conf sys fuel s') := by
  induction fuel generalizing s s' finished with
  | zero => exact .fault .fuel
  | succ fuel ih =>
    have hstep := readStep_of_sound h hl hok
    have halike := getDataStep_leftover h hok hlo
    rw [getDataLoop, getDataLoop]
    generalize getDataStep conf sys s = x at hstep halike
    generalize getDataStep conf sys s' = y at halike
    cases halike with
    | fault e => exact .fault e
    | done ret hab => exact .ok ret hab
    | again hab =>
      cases hstep with
      | move hs hl' _ _ => exact ih hs hl' hab

/-- A record goes to the log in use. -/
theorem rtagWriteItem_leftover (site : RtagSite) (hlog : LogOpen s) (hlo : Leftover s s') :
    Leftover (mqSmRtagWriteItem sys site s).2 (mqSmRtagWriteItem sys site s').2 := by
  cases hlo with
  | refl => exact .refl
  | @log t ht hlt =>
    obtain ⟨fd, append, off, u, hfd, -, href, hrt, -⟩ := hlog
    have hne : s.q.curRdb.curIndex ≠ s.q.curRdb.curIndex+1 := by omega
    have hwrite : (mqSmRtagWriteItem sys site (withLog s t)).2 =
        withLog (mqSmRtagWriteItem sys site s).2 t := by
      simp only [mqSmRtagWriteItem, withLog, hfd, Option.bind_some, href, Dir.setRtag_rtag,
        Function.update_of_ne hne, hrt]
      simp only [Dir.setRtag, Function.update_comm hne]
    rw [hwrite]
    exact .log ht (by rw [rtagWriteItem_q]; exact hlt)

/-- A log left over makes no difference to a get. -/
theorem popItem_leftover {ret : QueueGetRet} {s₁ : Store} (h : Sound conf clean s finished pend)
    (hl : Logged conf s finished) (hok : sys.Ok) (hlo : Leftover s s')
    (hpop : mqQmPopItem conf sys s = .ok (ret, s₁)) :
    ∃ s₂, mqQmPopItem conf sys s' = .ok (ret, s₂) ∧ Leftover s₁ s₂ := by
  unfold mqQmPopItem at hpop ⊢
  have hq := hlo.q_eq
  by_cases hu : s.q.unreadCount < 1
  · rw [if_pos hu] at hpop
    cases hpop
    rw [if_pos (by rw [hq]; exact hu)]
    exact ⟨s', rfl, hlo⟩
  rw [if_neg hu] at hpop
  rw [if_neg (by rw [hq]; exact hu)]
  have hfuel : readDistance conf s' = readDistance conf s := by rw [readDistance, readDistance, hq]
  have hres := readResult_of_sound h hl hok
  have halike := getDataLoop_leftover h hl hok hlo (readDistance conf s+1)
  unfold mqSmGetData at hpop hres ⊢
  rw [hfuel]
  generalize getDataLoop conf sys (readDistance conf s+1) s = x at hpop hres halike
  generalize getDataLoop conf sys (readDistance conf s+1) s' = y at halike
  cases halike with
  | fault e => cases hpop
  | @ok a b ret' hab =>
    cases ret' with
    | none =>
      cases hpop
      exact ⟨b, rfl, hab⟩
    | some item =>
      cases hpop
      cases hres with
      | take hm hy hs => exact ⟨_, rfl, rtagWriteItem_leftover .item hs.log hab⟩

/-- Messages are delivered beside a log left over as they are without it. -/
theorem delivers_of_leftover (h : Sound conf clean s finished pend) (hl : Logged conf s finished)
    (hw : WriterLive s) (hu : pend.length ≤ s.q.unreadCount) (hlo : Leftover s s') :
    Delivers conf pend s' := by
  induction pend generalizing s s' finished with
  | nil =>
    intro sys hok
    obtain ⟨s₁, hpop, hz⟩ := popItem_of_drained h hl hw hok
    obtain ⟨s₂, hpop', hlo'⟩ := popItem_leftover h hl hok hlo hpop
    exact ⟨s₂, hpop', by rw [hlo'.q_eq]; exact hz⟩
  | cons m ms ih =>
    intro sys hok hold
    rw [hlo.q_eq] at hold
    obtain ⟨s₁, finished', hpop, hs₁, hl₁, hw₁, hu₁⟩ := popItem_of_pending h hl hw hu hok hold
    obtain ⟨s₂, hpop', hlo'⟩ := popItem_leftover h hl hok hlo hpop
    exact ⟨s₂, hpop', ih hs₁ hl₁ hw₁ hu₁ hlo'⟩

variable {listing : List Fname}

/-- Nothing was changed yet. -/
theorem survives_untouched (h : Sound conf clean s finished pend) (hl : Logged conf s finished)
    (hh : HeadsOk conf s) (hok : sys.Ok) (hre : Reloadable (.listed s))
    (hlist : IsListing s.dir listing) :
    Survives conf sys listing s.dir (pend.map Msg.body) := by
  obtain ⟨rpos, hrest⟩ := restorable_of_logged h hl hre.1 hre.2
  exact survives_of_restorable hrest hh hok hlist

/-- A queue loaded beside a log left over. -/
theorem leftover_restored {dir : Dir} {r w : ℕ} (item : RtagItem) (hlt : r < w) {t : List Char}
    (ht : t.length ≤ 61) (unread put get : ℕ) :
    Leftover { restored dir r w item with q := { restoredQueue r w item with
        unreadCount := unread, putNum := put, getNum := get } }
      { restored (dir.setRtag (r+1) (some t)) r w item with q := { restoredQueue r w item with
        unreadCount := unread, putNum := put, getNum := get } } := by
  have hr : (restoredQueue r w item).curRdb.curIndex = r := @restored_rindex dir r w item
  have hlo := @Leftover.log { restored dir r w item with q := { restoredQueue r w item with
    unreadCount := unread, putNum := put, getNum := get } } t ht (by
      show (restoredQueue r w item).curRdb.curIndex < w
      omega)
  simp only [withLog, hr] at hlo
  exact hlo

/-- Both position logs are in place. -/
theorem survives_two_logs_iff {item : RtagItem} {dir : Dir} {r w : ℕ} {t : List Char}
    (h : Restorable conf clean dir r w item finished pend)
    (hh : HonestHeads conf dir.db r w item.wpos) (hok : sys.Ok) (hlt : r < w) (ht : t.length ≤ 61)
    (hlist : IsListing (dir.setRtag (r+1) (some t)) listing) :
    Survives conf sys listing (dir.setRtag (r+1) (some t)) (pend.map Msg.body) ↔
      OldLogKept sys listing r := by
  obtain ⟨u, hu, -⟩ := h.log
  have hne : r ≠ r+1 := by omega
  have hlogs : ∀ i, ((dir.setRtag (r+1) (some t)).rtag i).isSome = true ↔ i = r ∨ i = r+1 := by
    intro i
    rw [Dir.setRtag_rtag]
    by_cases hi : i = r+1
    · simp [hi]
    · rw [Function.update_of_ne hi, hasRtag_of_log h.rtags hu i]
      simp [hi]
  have hdbs : HasDbs (dir.setRtag (r+1) (some t)) r w := hasDbs_of_files rfl h.files
  obtain ⟨hfound, hunfound⟩ :=
    @findHandleFile_of_two_logs sys _ _ _ _ hlist hdbs hlogs hlt h.windex_lt
  constructor
  · intro hsurv
    by_contra hno
    exact not_survives_of_unfound (hunfound hno) hsurv
  · intro hkept
    have hload := openQueue_of_found (d := dir.setRtag (r+1) (some t)) h.loadable hok rfl
      (Function.update_of_ne hne _ _) (hfound hkept)
    have hcount := (@getMsgCount_of_honest _ _ _ (dir.setRtag (r+1) (some t)) _ _ _ _ _ _
      h.files h.rcount hh hok hlist).1
    obtain ⟨hs, hlog⟩ := sound_restored h
    obtain ⟨unread, put, get, heq⟩ := getMsgCount_eq conf sys listing
      (restored (dir.setRtag (r+1) (some t)) r w item)
    have hst : reloaded conf sys listing (some (dir.setRtag (r+1) (some t))) =
        .listed (mqSmGetMsgCount conf sys listing
          (restored (dir.setRtag (r+1) (some t)) r w item)) := by
      simp only [reloaded, hload]
      rfl
    rw [heq] at hst hcount
    exact ⟨_, pend, hst, rfl, delivers_of_leftover (hs.setCounters unread put get 0) hlog
      (@restored_writerLive dir r w item) hcount (leftover_restored item hlt ht unread put get)⟩

end Ucmq.ReadSwitchCrash
