import Ucmq.UnreadCount

/-!
# Cursors and file heads

A queue keeps its cursors within the data files and behind the file head, so
rewriting a head touches no stored message. This holds in every run whose
restarts find something in its position log besides the record of the queue's
creation. That record holds two zero positions, and a queue reset just before a
restart comes back with its cursors on the head.
-/

namespace Ucmq.CursorInvariant

open ByteRegion FramedLog LabelledRun StoreConfig StoreMsg StoreState StoreRtag StoreFile
open StoreManage QueueManage StoreInvariant ReadPath WritePath HandleFile Recovery Evhttp QueueStep
open QueueSlots RequestEffect ServerRun CleanRestart FifoRefinement RotationRuns UnreadCount

/-- Cursors in order and within the data files. -/
structure CursorsOk (conf : UcmqConf) (q : MqQueue) : Prop where
  index_le : q.curRdb.curIndex ≤ q.curWdb.curIndex
  rpos_ge : 128 ≤ q.curRdb.pos
  rpos_le : q.curRdb.pos ≤ maxDbFileSize conf
  wpos_ge : 128 ≤ q.curWdb.pos
  wpos_le : q.curWdb.pos ≤ maxDbFileSize conf
  rpos_le_wpos : q.curRdb.curIndex = q.curWdb.curIndex → q.curRdb.pos ≤ q.curWdb.pos

/-- A head write keeps the stored messages of a queue, and all bytes behind the
head of every file. -/
def HeadWriteSafe (conf : UcmqConf) (st : Store) : Prop :=
  ∃ finished pend, Files conf True st.dir.db st.q.curRdb.curIndex st.q.curRdb.pos
      st.q.curWdb.curIndex st.q.curWdb.pos finished pend ∧
    ∀ st', mqSmDbWriteFileHead conf st = .ok st' →
      Files conf True st'.dir.db st.q.curRdb.curIndex st.q.curRdb.pos st.q.curWdb.curIndex
        st.q.curWdb.pos finished pend ∧
      ∀ i f, st.dir.db i = some f → ∃ f', st'.dir.db i = some f' ∧ ∀ k, 128 ≤ k →
        f'.data k = f.data k

variable {conf : UcmqConf} {sys : Sys} {st st' : Store} {finished pend : List (Msg conf)}

/-- Cursors of a sound queue are in order. -/
theorem cursorsOk_of_sound (h : Sound conf True st finished pend) : CursorsOk conf st.q :=
  ⟨h.files.index_le, h.files.rpos_ge, h.files.rpos_le, h.files.wpos_ge, h.files.wpos_le,
    h.files.rpos_le_wpos⟩

/-- Its messages lie behind the file head. -/
theorem headWriteSafe_of_sound (h : Sound conf True st finished pend) : HeadWriteSafe conf st := by
  refine ⟨finished, pend, h.files, fun st' hst' => ?_⟩
  obtain ⟨d, hd, -⟩ := h.files.heads st.q.curWdb.curIndex h.files.index_le le_rfl
  rcases h.held.wmap with hw | hdead
  · rw [writeFileHead_of_live hw h.inRange.wcount_lt hd] at hst'
    cases hst'
    refine ⟨(sound_setHead h hd h.inRange.wcount_lt).files, fun i f hf => ?_⟩
    by_cases hi : i = st.q.curWdb.curIndex
    · subst hi
      obtain ⟨g, hg, -, rfl⟩ := dbSeg_eq_some.mp hd
      rw [hf] at hg
      cases hg
      exact ⟨_, Function.update_self _ _ _, fun k hk => withHead_of_le h.inRange.wcount_lt hk⟩
    · exact ⟨f, (Function.update_of_ne hi _ _).trans hf, fun _ _ => rfl⟩
  · rw [mqSmDbWriteFileHead, mapWrite_of_dead hdead] at hst'
    cases hst'

/-- At a restart a listed queue can be reloaded, and its position log holds more
than the record of its creation. -/
def RecordedRestarts (conf : UcmqConf) : Event → String → Slot → Prop
  | .request _ _, _, _ => True
  | .restart _ _ _, _, slot => Reloadable slot ∧ ¬OnlyCreationRecord conf slot

variable {s : Server} {n : String} {slot : Slot} {banner : String} {tr : History}

/-- A listed entry is the place of its name. -/
theorem slot_of_mem {e : QueueEntry} (he : e ∈ s.qlist) (h : HasSlot s e.qname slot) :
    slot = .listed (s.store e) := by
  have hmem : e ∈ entriesOf e.qname s.qlist := by simp [entriesOf, he]
  cases slot with
  | absent dir =>
    rw [h.1] at hmem
    cases hmem
  | listed st =>
    rw [h.1] at hmem
    have hst := store_of_listed h
    rw [← List.mem_singleton.mp hmem] at hst
    rw [hst]

/-- A name whose restarts find it recorded is free or holds a sound queue. -/
theorem tracked_of_run
    (h : Run (serve banner) (Guarded queueOpts (ForName conf n (RecordedRestarts conf)))
      (Server.start conf) tr s) :
    ∃ slot, HasSlot s n slot ∧ ∃ bodies, Tracked conf True bodies slot := by
  refine run_place (J := fun _ slot => ∃ bodies, Tracked conf True bodies slot)
    (fun _ ho => ho) ⟨[], .free⟩ (fun ev rs slot slot' _ hJ hg hs => ?_) h
  obtain ⟨bodies, ht⟩ := hJ
  obtain ⟨bodies', ht', -⟩ := tracked_step ht hs (fun _ => trivial) (by
    rintro ⟨sys, names, listing, rfl⟩
    exact ⟨hg.1, fun _ => hg.2⟩)
  exact ⟨bodies', ht'⟩

/-- Cursors and file heads of a listed queue are in order after every run whose
restarts find it recorded. -/
theorem cursors_in_range
    (h : Run (serve banner) (Guarded queueOpts (ForName conf n (RecordedRestarts conf)))
      (Server.start conf) tr s) :
    ∀ e ∈ s.qlist, e.qname = n → CursorsOk conf e.q ∧ HeadWriteSafe conf (s.store e) := by
  rintro e he rfl
  obtain ⟨slot, hslot, bodies, ht⟩ := tracked_of_run h
  obtain rfl := slot_of_mem he hslot
  cases ht with
  | held hs _ => exact ⟨cursorsOk_of_sound hs, headWriteSafe_of_sound hs⟩

/-- The runs that fill a file meet the condition. -/
theorem recordedRestarts_admits {big : List UInt8} :
    AdmitsRestart conf sys big [1] (RecordedRestarts conf) :=
  ⟨⟨fun _ => trivial, fun _ => trivial, fun _ _ _ => trivial, fun _ _ => trivial⟩,
    fun _ _ _ => ⟨trivial, id⟩, fun _ _ _ hre hlog _ _ => ⟨hre, hlog⟩⟩

/-- A run with a rotation, a get and a restart meets the condition, and leaves a
queue with its cursors in order. -/
theorem cursors_in_range_restarted : ∃ tr s st,
    Run (serve "") (Guarded queueOpts (ForName .least "q" (RecordedRestarts .least)))
        (Server.start .least) tr s ∧
      s.qlist = [⟨"q", st.proc, st.q⟩] ∧ CursorsOk .least st.q ∧ HeadWriteSafe .least st := by
  obtain ⟨big, hbig⟩ := exists_big
  obtain ⟨tr, s, st, hrun, honly, -, -⟩ := run_least hbig (recordedRestarts_admits.forName rfl "q")
  have hrun' := run_mono queueOpts (by decide) (fun _ _ _ hg => hg) hrun
  have hcursors := cursors_in_range hrun' ⟨"q", st.proc, st.q⟩
    (by rw [honly.qlist]; exact List.mem_singleton_self _) rfl
  rw [store_of_listed honly.slot] at hcursors
  exact ⟨tr, s, st, hrun', honly.qlist, hcursors⟩

/-- Resetting the only queue leaves a queue just created. -/
theorem reset_onlyQueue (h : OnlyQueue conf s n st) (hn : reqQnameCheck (some n) = true)
    (hok : sys.Ok) (hfree : storageLow conf sys = false) (hroom : 0 < conf.maxQlistItmes) :
    ∃ rs s', mqEvhttpCbDoOptEntry banner sys (Request.of "reset" n []) s = .ok (rs, s') ∧
      OnlyQueue conf s' n (created conf) := by
  obtain rfl := h.conf_eq
  have hdel := sameElsewhere_delQueue sys n s
  have habsent := (delQueue_of_listed hok h.slot).2
  have hlist : (mqQmDelQueue sys n s).2.qlist = [] := by
    have hfind : hashFindQueueByKey n s.qlist = some ⟨n, st.proc, st.q⟩ := find_of_listed h.slot
    simp only [mqQmDelQueue, hfind, mqSmRemoveDb, h.slot.2, hok.accessRemove, if_true]
    rw [h.qlist]
    simp only [hashDelQueue, if_true]
  have hadd : (mqQmAddQueue sys n (mqQmDelQueue sys n s).2).1 = true := by
    refine addQueue_of_free hok (by rw [hdel.conf]; exact hfree) ?_ n
    rw [hlist, hdel.conf]
    exact hroom
  have hreset : (httpOptReset sys (Request.of "reset" n []) s).2 =
      (mqQmAddQueue sys n (mqQmDelQueue sys n s).2).2 := by
    simp only [Request.of, httpOptReset, Option.getD_some, hn, find_of_listed h.slot,
      Bool.true_eq_false, if_false]
  refine ⟨(httpOptReset sys (Request.of "reset" n []) s).1,
    (httpOptReset sys (Request.of "reset" n []) s).2, rfl, ?_⟩
  rw [hreset]
  rcases addQueue_of_absent hok habsent with ⟨hf, -⟩ | ⟨-, hs⟩
  · rw [hadd] at hf
    cases hf
  · rw [hdel.conf] at hs
    exact h.of_same (hdel.trans (sameElsewhere_addQueue sys n _)) hs

/-- The directory of a queue just created is loaded with its creation record. -/
theorem loadable_created (conf : UcmqConf) :
    Loadable conf (created conf).dir 1 1 (creationItem conf) := by
  have hs := (sound_created conf).1
  obtain ⟨fd, append, off, t, -, -, -, ht, -⟩ := hs.log
  refine ⟨le_rfl, hasDbs_of_files rfl hs.files, ?_, hasRtag_of_log hs.rtags ht, ⟨[], ?_, ?_⟩,
    creationItem_typed conf, by simp [checkRtagItem, creationItem], by decide⟩
  · intro i f hf
    obtain ⟨hr, hw⟩ := hs.files.dbs i (by rw [hf]; exact Option.some_ne_none f)
    have hi : i = 1 := Nat.le_antisymm hw hr
    subst hi
    have hf' : f = ⟨maxDbFileSize conf, blankData conf⟩ := by simpa [created] using hf.symm
    rw [hf']
  · simp [created]
  · rw [List.nil_append, length_rtagText (creationItem_typed conf)]
    decide

/-- A queue that is reset and then restarted has its cursors on the file head. -/
theorem cursors_on_head_after_reset :
    ∃ tr s, Run (serve "") (Guarded queueOpts fun _ _ _ => True) (Server.start .least) tr s ∧
      ∃ e ∈ s.qlist, e.q.curRdb.pos = 0 ∧ e.q.curWdb.pos = 0 := by
  have hok := Sys.quiet_ok 0 0
  obtain ⟨rs₁, s₁, st₁, hres₁, -, honly₁, -⟩ := @put_created .least _ [1] hok rfl
    (by decide) rfl (by decide) (by decide)
  obtain ⟨rs₂, s₂, hres₂, honly₂⟩ :=
    @reset_onlyQueue _ _ _ _ _ "" honly₁ (by decide) hok rfl (by decide)
  have hlist : IsListing (created .least).dir [.rtag 1, .db 1] :=
    isListing_of_sound (sound_created .least).1
  have hre : reloaded .least (Sys.quiet 0 0) [.rtag 1, .db 1] (some (created .least).dir) =
      .listed (mqSmGetMsgCount .least (Sys.quiet 0 0) [.rtag 1, .db 1]
        (restored (created .least).dir 1 1 (creationItem .least))) := by
    simp only [reloaded, openQueue_of_loadable (loadable_created .least) hok hlist]
    rfl
  obtain ⟨unread, put, get, hq⟩ := getMsgCount_eq .least (Sys.quiet 0 0) [.rtag 1, .db 1]
    (restored (created .least).dir 1 1 (creationItem .least))
  obtain ⟨hadm, honly₃⟩ := honly₂.restart queueOpts hok hlist hre
  have hnil : Run (serve "") (Guarded queueOpts fun _ _ _ => True) (Server.start .least) []
      (Server.start .least) := .nil
  have hrun₁ := run_request hnil hok ⟨"put", by decide, rfl⟩ (fun _ _ _ => trivial) hres₁
  have hrun₂ := run_request hrun₁ hok ⟨"reset", by decide, rfl⟩ (fun _ _ _ => trivial) hres₂
  have hrun₃ := hrun₂.snoc ⟨hadm, fun _ _ _ => trivial⟩ rfl
  refine ⟨_, _, hrun₃, ?_⟩
  rw [honly₃.qlist]
  refine ⟨_, List.mem_singleton_self _, ?_, ?_⟩
  · rw [hq]
    rfl
  · rw [hq]
    rfl

end Ucmq.CursorInvariant
