import Ucmq.QueueStep

/-!
# What the operations of a queue can do

The outcomes of an operation that does not fault, on any queue and for any file
contents. An operation was refused by a check of its own, or it went through the
operations below it; an invariant of those is one of the operation by cases on
its outcome, and one of every iteration is one of the read loop.
-/

namespace Ucmq.OperationCases

open ByteRegion DecimalText StoreConfig StoreMsg StoreState StoreRtag StoreFile StoreManage
open QueueManage ReadPath QueueStep

variable {conf : UcmqConf} {sys : Sys} {s s' : Store} {item : MsgItem} {ok : Bool}

/-- A composed computation that does not fault ran both parts. -/
theorem ok_of_bind {α β : Type} {x : Except Fault α} {f : α → Except Fault β} {b : β}
    (h : x >>= f = .ok b) :
    ∃ a, x = .ok a ∧ f a = .ok b := by
  cases x with
  | error e => cases h
  | ok a => exact ⟨a, rfl, h⟩

/-- What writing a message can do. -/
inductive MsgWritten (conf : UcmqConf) (sys : Sys) (item : MsgItem) (s : Store) :
    Bool → Store → Prop
  | appended {s' : Store} (hfit : ¬needsRotation conf s.q item.len)
      (hw : writeMsgBytes conf item s = .ok s') : MsgWritten conf sys item s true s'
  | refused {s₁ s' : Store} (hrot : needsRotation conf s.q item.len)
      (hhead : mqSmDbWriteFileHead conf s = .ok s₁)
      (hnext : getNextWriteFile conf sys s₁ = .ok (false, s')) : MsgWritten conf sys item s false s'
  | rotated {s₁ s₂ s' : Store} (hrot : needsRotation conf s.q item.len)
      (hhead : mqSmDbWriteFileHead conf s = .ok s₁)
      (hnext : getNextWriteFile conf sys s₁ = .ok (true, s₂))
      (hw : writeMsgBytes conf item s₂ = .ok s') : MsgWritten conf sys item s true s'

/-- A write that returns has taken one of these ways. -/
theorem msgWritten_of_ok (h : mqSmDbWriteMsg conf sys item s = .ok (ok, s')) :
    MsgWritten conf sys item s ok s' := by
  unfold mqSmDbWriteMsg at h
  by_cases hrot : needsRotation conf s.q item.len
  · rw [if_pos hrot] at h
    obtain ⟨s₁, hhead, h⟩ := ok_of_bind h
    obtain ⟨⟨ok₂, s₂⟩, hnext, h⟩ := ok_of_bind h
    cases ok₂ with
    | false =>
      cases h
      exact .refused hrot hhead hnext
    | true =>
      obtain ⟨s₃, hw, h⟩ := ok_of_bind h
      cases h
      exact .rotated hrot hhead hnext hw
  · rw [if_neg hrot] at h
    obtain ⟨s₁, hw, h⟩ := ok_of_bind h
    cases h
    exact .appended hrot hw

/-- A put stores nothing, or the message with a checksum. -/
theorem putData_of_ok (h : mqSmPutData conf sys item s = .ok (ok, s')) :
    ok = false ∧ s' = s ∨ ∃ crc16, MsgWritten conf sys { item with crc16 := crc16 } s ok s' := by
  unfold mqSmPutData at h
  cases hcrc : mqSmDbBuildMsgCrc16 (fun n => item.msg.take n) (toI32 (item.len : ℤ)) with
  | none =>
    rw [hcrc] at h
    cases h
    exact Or.inl ⟨rfl, rfl⟩
  | some crc16 =>
    rw [hcrc] at h
    exact Or.inr ⟨crc16, msgWritten_of_ok h⟩

/-- What a put can do. -/
inductive ItemPushed (conf : UcmqConf) (sys : Sys) (len : ℕ) (msg : List UInt8) (s : Store) :
    QueuePutRet → Store → Prop
  | full (hfull : queueFull s.q) : ItemPushed conf sys len msg s .full s
  | wlock (hfull : ¬queueFull s.q) (hlock : writeLocked sys s.q) :
      ItemPushed conf sys len msg s .wlock s
  | failed {s' : Store} (ho : putOpen sys s.q)
      (hput : mqSmPutData conf sys (putItem sys len msg) s = .ok (false, s')) :
      ItemPushed conf sys len msg s .putError s'
  | stored {s₁ s₂ : Store} (ho : putOpen sys s.q)
      (hput : mqSmPutData conf sys (putItem sys len msg) s = .ok (true, s₁))
      (hrec : (mqSmRtagWriteItem sys .item s₁).2 = s₂) : ItemPushed conf sys len msg s .putOk
        { s₂ with q := { s₂.q with syncIntv := nextSyncIntv conf s₂.q.syncIntv } }

/-- So has a put. -/
theorem itemPushed_of_ok {len : ℕ} {msg : List UInt8} {ret : QueuePutRet}
    (h : mqQmPushItem conf sys len msg s = .ok (ret, s')) :
    ItemPushed conf sys len msg s ret s' := by
  unfold mqQmPushItem at h
  by_cases hfull : queueFull s.q
  · rw [if_pos hfull] at h
    cases h
    exact .full hfull
  rw [if_neg hfull] at h
  by_cases hlock : writeLocked sys s.q
  · rw [if_pos hlock] at h
    cases h
    exact .wlock hfull hlock
  rw [if_neg hlock] at h
  have hitem : putItem sys len msg =
      ⟨msgHeadOfFirstMagicNum, msgHeadOfSecondMagicNum, curTime sys, 0, len, msg⟩ := by rw [putItem]
  rw [← hitem] at h
  obtain ⟨⟨ok, s₁⟩, hput, h⟩ := ok_of_bind h
  cases ok with
  | false =>
    cases h
    exact .failed ⟨hfull, hlock⟩ hput
  | true =>
    cases h
    exact .stored ⟨hfull, hlock⟩ hput rfl

/-- What one iteration of the read loop can do. -/
inductive StepTaken (conf : UcmqConf) (sys : Sys) (s : Store) : GetStep → Prop
  | ended (hend : s.q.curRdb.curIndex = s.q.curWdb.curIndex ∧
      s.q.curWdb.pos ≤ u32 (s.q.curRdb.pos+12)) :
      StepTaken conf sys s (.done none (atQueueEnd s))
  | young : StepTaken conf sys s (.done none s)
  | taken {view : Option Region} {item : MsgItem}
      (hend : ¬(s.q.curRdb.curIndex = s.q.curWdb.curIndex ∧
        s.q.curWdb.pos ≤ u32 (s.q.curRdb.pos+12)))
      (hparse : mqSmDbParseMsg conf view s.q.curRdb.pos = .ok item) :
      StepTaken conf sys s (.done (some item) (takeMsg s item.len))
  | skipped {k : ℕ} {view : Option Region} {ret : MsgCheckRet} (hpos : 0 < k) (hle : k ≤ 2)
      (hparse : mqSmDbParseMsg conf view s.q.curRdb.pos = ret)
      (hret : ret ≠ .lenBey ∧ ret ≠ .msgErr) :
      StepTaken conf sys s (.again (setReadPos s (u32 (s.q.curRdb.pos+k))))
  | stopped {s' : Store} (hnext : getNextReadFile conf sys s = (false, s')) :
      StepTaken conf sys s (.done none s')
  | switched {s' : Store} (hnext : getNextReadFile conf sys s = (true, s')) :
      StepTaken conf sys s (.again s')

/-- So has an iteration of the read loop. -/
theorem stepTaken_of_ok {step : GetStep} (h : getDataStep conf sys s = .ok step) :
    StepTaken conf sys s step := by
  unfold getDataStep at h
  by_cases hend : s.q.curRdb.curIndex = s.q.curWdb.curIndex ∧
    s.q.curWdb.pos ≤ u32 (s.q.curRdb.pos+12)
  · rw [if_pos hend] at h
    cases h
    exact .ended hend
  rw [if_neg hend] at h
  cases hview : s.mapView conf s.q.curRdb.mapMem with
  | error e =>
    rw [hview] at h
    cases h
  | ok view =>
    rw [hview] at h
    cases hparse : mqSmDbParseMsg conf view s.q.curRdb.pos with
    | ok item =>
      simp only [hparse] at h
      by_cases hyoung : tooYoung sys s.q.delay item.delay
      · rw [if_pos hyoung] at h
        cases h
        exact .young
      · rw [if_neg hyoung] at h
        cases h
        exact .taken hend hparse
    | magNumErr =>
      simp only [hparse] at h
      cases h
      exact .skipped Nat.one_pos (by omega) hparse (by simp)
    | parseErr | crcErr =>
      simp only [hparse] at h
      cases h
      exact .skipped Nat.two_pos le_rfl hparse (by simp)
    | msgErr | lenBey =>
      simp only [hparse] at h
      cases hnext : getNextReadFile conf sys s with
      | mk ok s₁ =>
        rw [hnext] at h
        cases ok <;> cases h
        · exact .stopped hnext
        · exact .switched hnext

/-- What every iteration keeps, the read loop keeps. -/
theorem getDataLoop_keeps {P : Store → Prop} {fuel : ℕ} {ret : Option MsgItem}
    (hdone : ∀ s ret s', P s → StepTaken conf sys s (.done ret s') → P s')
    (hagain : ∀ s s', P s → StepTaken conf sys s (.again s') → P s') (hs : P s)
    (h : getDataLoop conf sys fuel s = .ok (ret, s')) : P s' := by
  induction fuel generalizing s with
  | zero => cases h
  | succ fuel ih =>
    rw [getDataLoop] at h
    cases hstep : getDataStep conf sys s with
    | error e =>
      rw [hstep] at h
      cases h
    | ok step =>
      have htaken := stepTaken_of_ok hstep
      rw [hstep] at h
      cases step with
      | done ret s₁ =>
        cases h
        exact hdone _ _ _ hs htaken
      | again s₁ => exact ih (hagain _ _ hs htaken) h

/-- What a get can do. -/
inductive ItemPopped (conf : UcmqConf) (sys : Sys) (s : Store) : QueueGetRet → Store → Prop
  | empty (hu : s.q.unreadCount < 1) : ItemPopped conf sys s .getEnd s
  | ended {s' : Store} (hget : mqSmGetData conf sys s = .ok (none, s')) :
      ItemPopped conf sys s .getEnd s'
  | got {s₁ s' : Store} {item : MsgItem} (hget : mqSmGetData conf sys s = .ok (some item, s₁))
      (hrec : (mqSmRtagWriteItem sys .item s₁).2 = s') : ItemPopped conf sys s (.getOk item) s'

/-- So has a get. -/
theorem itemPopped_of_ok {ret : QueueGetRet} (h : mqQmPopItem conf sys s = .ok (ret, s')) :
    ItemPopped conf sys s ret s' := by
  unfold mqQmPopItem at h
  by_cases hu : s.q.unreadCount < 1
  · rw [if_pos hu] at h
    cases h
    exact .empty hu
  rw [if_neg hu] at h
  obtain ⟨⟨item, s₁⟩, hget, h⟩ := ok_of_bind h
  cases item with
  | none =>
    cases h
    exact .ended hget
  | some item =>
    cases h
    exact .got hget rfl

end Ucmq.OperationCases
