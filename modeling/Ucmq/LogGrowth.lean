import Ucmq.CounterAgreement
import Ucmq.PositionLog

/-!
# The size of a position log

Every operation appends a record, and only a read switch starts a new log. At
start the size of the log and the offset of its last record are narrowed to
signed 32-bit integers. A log is restored exactly when its size, modulo 2^32, is
at least one record and below 2^31; with the first record that reaches 2^31
bytes the queue is not opened any more.
-/

namespace Ucmq.LogGrowth

open DecimalText LabelledRun StoreConfig StoreMsg StoreState StoreRtag StoreFile StoreManage
open QueueManage StoreInvariant HandleFile Recovery Evhttp QueueStep QueueSlots RequestEffect
open ServerRun CleanRestart FifoRefinement RotationRuns UnreadCount CursorInvariant DirectoryLayout
open CounterAgreement PositionLog

variable {conf : UcmqConf} {sys : Sys} {st st' : Store} {finished pend : List (Msg conf)}
variable {banner n : String} {tr : History} {s : Server}

/-- The position log of a queue is opened, and its last record is restored. -/
def LogRestored (conf : UcmqConf) (sys : Sys) (st : Store) : Prop :=
  ∃ u item proc, item.Typed ∧ st.dir.rtag st.q.curRdb.curIndex = some (u ++ rtagText item) ∧
    mqSmRtagOpenFile sys st.q.curRdb.curIndex st.dir Proc.empty = some (u ++ rtagText item, proc) ∧
    ∀ q, rtagItem (mqSmRtagReadItem conf (u ++ rtagText item) q) = item

/-- The size of the position log is in a range that narrowing keeps. -/
def LogSizeOk (st : Store) : Prop :=
  ∀ t, st.dir.rtag st.q.curRdb.curIndex = some t → 61 ≤ t.length%2^32 ∧ t.length%2^32 < 2^31

/-- The last record of a text is determined by it. -/
theorem rtagText_unique {u v : List Char} {a b : RtagItem} (ha : a.Typed) (hb : b.Typed)
    (h : u ++ rtagText a = v ++ rtagText b) : a = b := by
  have hlen : (rtagText a).length = (rtagText b).length := by
    rw [length_rtagText ha, length_rtagText hb]
  have htext := (List.append_inj' h hlen).2
  have hpa := parseRtagColumns_text ha a
  rw [htext, parseRtagColumns_text hb a] at hpa
  exact (Prod.mk.inj hpa).2.symm

/-- A log whose record lies at an offset that is negative as an integer is not
read. -/
theorem rtagReadLoop_negative {t : List Char} {fuel : ℕ} {old : RtagItem} (hlen : 61 ≤ t.length)
    (hneg : toI32 (t.length-61 : ℕ) < 0) : rtagReadLoop conf t fuel 1 old = rtagFallback conf := by
  cases fuel with
  | zero => rfl
  | succ fuel =>
    have hoff : (if t.length < 1*61 then -1 else toI32 (t.length-1*61 : ℕ)) < 0 := by
      rw [if_neg (by omega)]
      exact hneg
    rw [rtagReadLoop]
    simp only
    rw [if_pos hoff]

/-- The log of a sound and logged queue is restored exactly in that range. -/
theorem logRestored_iff (hs : Sound conf True st finished pend) (hl : Logged conf st finished)
    (hok : sys.Ok) :
    LogRestored conf sys st ↔ LogSizeOk st := by
  obtain ⟨u, rpos, d, ht, hd, hscan, hle, -⟩ := hl
  have htyped : RtagItem.Typed { rtagItem st.q with rpos := rpos } := by
    have h := hs.typed
    exact ⟨h.rcount, lt_of_le_of_lt hle h.rpos, h.wpos, h.maxqueue, h.delay, h.wlock_ge, h.wlock_lt⟩
  have hcheck : checkRtagItem conf { rtagItem st.q with rpos := rpos } = true := by
    have hcount := hs.files.finished_le
    have hrpos := hs.files.rpos_le
    rw [hs.rcount] at hcount
    simp only [checkRtagItem, decide_eq_true_eq]
    exact ⟨hcount, hle.trans hrpos, hs.files.wpos_le⟩
  have hlen := length_rtagText htyped
  generalize hitem : { rtagItem st.q with rpos := rpos } = item at *
  have hsize : (u ++ rtagText item).length = u.length+61 := by rw [List.length_append, hlen]
  have hrpos : item.rpos = rpos := by rw [← hitem]
  constructor
  · rintro ⟨v, item', proc, htyped', ht', hopen, hread⟩ t htext
    rw [htext] at ht
    cases ht
    rw [htext] at ht'
    have hsame := rtagText_unique htyped htyped' (Option.some.inj ht')
    subst hsame
    rw [← Option.some.inj ht'] at hopen hread
    simp only [mqSmRtagOpenFile, htext] at hopen
    have hpos : 0 < toI32 (u ++ rtagText item).length := by
      by_contra hno
      rw [if_pos (by omega)] at hopen
      cases hopen
    obtain ⟨-, hlt⟩ := (toI32_pos_iff _).mp hpos
    refine ⟨?_, hlt⟩
    by_contra hsmall
    have hneg : toI32 ((u ++ rtagText item).length-61 : ℕ) < 0 := by
      by_contra hno
      have hseek := (toI32_nonneg_iff ((u ++ rtagText item).length-61)).mp (by omega)
      omega
    have hfall := hread .zero
    rw [rtagItem_readItem, rtagReadLoop_negative (by omega) hneg] at hfall
    have hzero : rpos = 0 := by rw [← hrpos, ← hfall]; rfl
    have := hscan.le
    omega
  · intro hrange
    obtain ⟨hge, hlt⟩ := hrange _ ht
    have hpos : 0 < toI32 (u ++ rtagText item).length := (toI32_pos_iff _).mpr ⟨by omega, hlt⟩
    refine ⟨u, item, Proc.empty.openFd (.rtag st.q.curRdb.curIndex true 0), htyped, ht,
      ?_, fun q => ?_⟩
    · simp only [mqSmRtagOpenFile, ht, hok.rtagOpen, if_true]
      rw [if_neg (by omega)]
    · rw [rtagItem_readItem]
      refine rtagReadLoop_seek htyped hcheck ((toI32_nonneg_iff _).mpr ?_) _ _
      omega

/-- A logged queue has at least one record in its log. -/
theorem length_log (hs : Sound conf True st finished pend) (hl : Logged conf st finished)
    {t : List Char} (ht : st.dir.rtag st.q.curRdb.curIndex = some t) : 61 ≤ t.length := by
  obtain ⟨u, rpos, d, ht', -, -, hle, -⟩ := hl
  have h := hs.typed
  have htyped : RtagItem.Typed { rtagItem st.q with rpos := rpos } :=
    ⟨h.rcount, lt_of_le_of_lt hle h.rpos, h.wpos, h.maxqueue, h.delay, h.wlock_ge, h.wlock_lt⟩
  rw [ht'] at ht
  cases ht
  rw [List.length_append, length_rtagText htyped]
  omega

/-- After every run of requests that delete nothing, the position log of every
listed queue is restored at the next start exactly when its size is in range. -/
theorem log_restored_iff
    (h : Run (serve banner) (Guarded layoutOpts Requests) (Server.start conf) tr s) (hok : sys.Ok) :
    ∀ e ∈ s.qlist, LogRestored conf sys (s.store e) ↔ LogSizeOk (s.store e) := by
  intro e he
  obtain ⟨slot, hslot, bodies, ht, -⟩ := agreeing_of_run h e.qname
  obtain rfl := slot_of_mem he hslot
  cases ht with
  | held hs hl => exact logRestored_iff hs (hl.resolve_right fun hf => hf.1) hok

/-- A run with a rotation and a get, whose log is restored. -/
theorem log_restored_iff_rotated : ∃ (tr : History) (s : Server) (st : Store),
    Run (serve "") (Guarded layoutOpts Requests) (Server.start .least) tr s ∧
      s.qlist = [⟨"q", st.proc, st.q⟩] ∧ st.q.curWdb.curIndex = 2 ∧
      LogRestored .least (Sys.quiet 0 0) st := by
  obtain ⟨big, hbig⟩ := exists_big
  obtain ⟨rs₁, rs₂, rs₃, s, st, hrun, -, -, -, honly, -, hlog, -, hw, finished, pend, hs, hl⟩ :=
    @run_at_switch .least (Sys.quiet 0 0) [1] big _ (Sys.quiet_ok 0 0) rfl (by decide) rfl rfl hbig
      (by decide) (by decide) (undisturbed_admits rfl)
  have hrun' := run_mono layoutOpts (by decide) (fun _ _ _ hg => And.left hg) hrun
  have hiff := log_restored_iff hrun' (Sys.quiet_ok 0 0) ⟨"q", st.proc, st.q⟩ (by
    rw [honly.qlist]
    exact List.mem_singleton_self _)
  rw [store_of_listed honly.slot] at hiff
  refine ⟨_, s, st, hrun', honly.qlist, hw, hiff.mpr fun t ht => ?_⟩
  have hge := length_log hs hl ht
  have hlt := hlog t ht
  omega

/-- A lock request without a number records the lock once more. -/
theorem wlock_onlyQueue (h : OnlyQueue conf s n st)
    (hn : reqQnameCheck (some n) = true) (sys : Sys) :
    ∃ rs s', mqEvhttpCbDoOptEntry banner sys (Request.of "wlock" n []) s = .ok (rs, s') ∧
      OnlyQueue conf s' n (mqQmSetWlock sys (toU32 (-1)) st) := by
  have hset : (httpOptWlock sys (Request.of "wlock" n []) s).2 =
      s.setStore n (mqQmSetWlock sys (toU32 (-1)) st) := by
    simp only [Request.of, httpOptWlock, Option.getD_some, hn, find_of_listed h.slot,
      store_of_listed h.slot, destNum, Bool.true_eq_false, if_false]
  refine ⟨_, _, rfl, ?_⟩
  show OnlyQueue conf (httpOptWlock sys (Request.of "wlock" n []) s).2 n _
  rw [hset]
  exact h.of_same (sameElsewhere_setStore s n _) (hasSlot_setStore h.slot _)

/-- After a put and any number of lock requests the log holds a record for each. -/
theorem exists_run_log (k : ℕ) :
    ∃ tr s st finished pend t, Run (serve "") (Guarded layoutOpts Requests)
      (Server.start .least) tr s ∧
      OnlyQueue .least s "q" st ∧ Sound .least True st finished pend ∧ Logged .least st finished ∧
      st.q.curWdb.curIndex = 1 ∧ st.dir.rtag st.q.curRdb.curIndex = some t ∧ 61*k ≤ t.length ∧
      t.length ≤ 122+61*k := by
  have hok := Sys.quiet_ok 0 0
  induction k with
  | zero =>
    obtain ⟨rs, s, st, hres, -, honly, hfirst⟩ := @put_created .least _ [1] hok rfl
      (by decide) rfl (by decide) (by decide)
    obtain ⟨pend, hs, hl⟩ := hfirst.sound
    obtain ⟨fd, append, off, t, -, -, -, ht, -⟩ := hs.log
    have hnil : Run (serve "") (Guarded layoutOpts Requests) (Server.start .least) []
        (Server.start .least) := .nil
    have hrun := run_request hnil hok ⟨"put", by decide, rfl⟩ (fun _ _ _ => trivial) hres
    refine ⟨_, s, st, [], pend, t, hrun, honly, hs, hl, hfirst.windex, ht, Nat.zero_le _,
      hfirst.log t ?_⟩
    rw [← hfirst.rindex]
    exact ht
  | succ k ih =>
    obtain ⟨tr, s, st, finished, pend, t, hrun, honly, hs, hl, hw, ht, hge, hle⟩ := ih
    obtain ⟨rs, s', hres, honly'⟩ := @wlock_onlyQueue _ _ "" _ _ honly (by decide) (Sys.quiet 0 0)
    have hset := setWlock_of_sound hs hok (toU32 (-1))
    obtain ⟨hs', hl'⟩ := sound_of_set hs hset
    obtain ⟨maxque, delay, wlock, hm, hd, hlo, hup, hrec⟩ := hset
    obtain ⟨u, hu, hrt⟩ := hrec.rtag
    have hsame : u = t := Option.some.inj (hu.symm.trans ht)
    have hlen := length_rtagText (sound_setSettings hs hm hd hlo hup).typed
    have hrun' := run_request hrun hok ⟨"wlock", by decide, rfl⟩ (fun _ _ _ => trivial) hres
    refine ⟨_, s', _, finished, pend,
      t ++ rtagText (rtagItem (setSettings st maxque delay wlock).q), hrun', honly', hs', hl', ?_,
      ?_, ?_, ?_⟩
    · rw [hrec.q]
      exact hw
    · rw [hrec.q, hrt, hsame]
      exact Function.update_self _ _ _
    · rw [List.length_append, hlen]
      omega
    · rw [List.length_append, hlen]
      omega

/-- After 35204650 lock requests the log is not restored. -/
theorem log_lost :
    ∃ tr s, Run (serve "") (Guarded layoutOpts Requests) (Server.start .least) tr s ∧
      ∃ e ∈ s.qlist, ¬LogRestored .least (Sys.quiet 0 0) (s.store e) := by
  obtain ⟨tr, s, st, finished, pend, t, hrun, honly, hs, hl, -, ht, hge, hle⟩ :=
    exists_run_log 35204650
  refine ⟨tr, s, hrun, ⟨"q", st.proc, st.q⟩,
    by rw [honly.qlist]; exact List.mem_singleton_self _, ?_⟩
  rw [store_of_listed honly.slot, logRestored_iff hs hl (Sys.quiet_ok 0 0)]
  intro hsize
  have hrange := hsize t ht
  omega

end Ucmq.LogGrowth
