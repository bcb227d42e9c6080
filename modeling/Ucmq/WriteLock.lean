import Ucmq.LastingRecord
import Ucmq.LogGrowth

/-!
# The window of a write lock

A lock set for a number of seconds refuses puts at exactly the readings before
its end, a permanent one at all readings, and no lock at none. The end of the
window is a signed integer that is compared as unsigned and written as an
unsigned column, and none of these conversions changes what it means. Puts,
gets, other settings and restarts that can load the queue leave the window
alone, unless a put of any queue has given up its write file and found no
storage for the next one. A queue whose position log has reached 2^31 bytes is
not loaded again, and its lock is gone with it.
-/

namespace Ucmq.WriteLock

open LabelledRun DecimalText StoreConfig StoreMsg StoreState StoreRtag StoreFile StoreManage
open QueueManage StoreInvariant HandleFile Recovery Evhttp QueueStep QueueSlots RequestEffect
open ServerRun CleanRestart FifoRefinement RotationRuns UnreadCount CursorInvariant DirectoryLayout
open CounterAgreement LogGrowth OperationCases LastingRecord

/-- A lock of this length, set at one reading, is in force at another. -/
def LockedAt (length : ℕ) (T t : ℤ) : Prop := length = 2^32-1 ∨ length ≠ 0 ∧ t < T+length

/-- A put that the capacity check lets through is refused for the lock exactly
while it is in force. -/
def LockWindow (conf : UcmqConf) (length : ℕ) (T : ℤ) (st : Store) : Prop :=
  ∀ sys len msg, 0 ≤ sys.now → sys.now < 2^31 → ¬queueFull st.q →
    ((∃ st', mqQmPushItem conf sys len msg st = .ok (.wlock, st')) ↔ LockedAt length T sys.now)

/-- The event does not set the lock of a name, and does not delete its queue. -/
def KeepsLock (n : String) : Event → Prop
  | .request _ req =>
    req.name = some n → ∃ o ∈ ["put", "get", "maxqueue", "delay"], req.opt = some o
  | .restart _ _ _ => True

/-- Restarts find a queue that can be reloaded, and no event touches its lock. -/
def LockLeft (ev : Event) (n : String) (slot : Slot) : Prop :=
  ReloadableRestarts ev n slot ∧ KeepsLock n ev

variable {conf : UcmqConf} {sys : Sys} {st st' : Store} {lock : ℤ} {n : String} {slot slot' : Slot}
variable {ev : Event} {rs : List Reply} {banner : String} {tr tr' : History} {s s' : Server}

/-- Only the lock answers a put with this result. -/
theorem push_wlock_iff {len : ℕ} {msg : List UInt8} (hroom : ¬queueFull st.q) :
    (∃ st', mqQmPushItem conf sys len msg st = .ok (.wlock, st')) ↔ writeLocked sys st.q := by
  constructor
  · rintro ⟨st', h⟩
    cases itemPushed_of_ok h with
    | wlock _ hlock => exact hlock
  · intro hlock
    exact ⟨st, by rw [mqQmPushItem, if_neg hroom, if_pos hlock]⟩

/-- The end of a finite lock is not mistaken for a permanent one, and compares
as the sum it stands for. -/
theorem writeLocked_iff {now : Sys} {q : MqQueue} {length : ℕ} (hT : 0 ≤ sys.now)
    (hlt : sys.now < 2^31) (hlength : length < 2^31 ∨ length = 2^32-1)
    (hq : q.wlock = wlockValue sys length) (ht : 0 ≤ now.now)
    (ht' : now.now < 2^31) : writeLocked now q ↔ LockedAt length sys.now now.now := by
  have hcur : (curTime now : ℤ) = now.now := by
    unfold curTime
    omega
  unfold writeLocked LockedAt
  rw [hq]
  unfold wlockValue
  by_cases hperm : length = 2^32-1
  · simp [hperm]
  rw [if_neg hperm]
  by_cases hzero : length = 0
  · simp [hzero]
  rw [if_neg hzero]
  have hmod : toI32 (sys.now+length)%2^32 = sys.now+length := by
    unfold toI32
    have hb : (sys.now+(length : ℤ)).bmod (2^32)%2^32 = (sys.now+length)%2^32 := Int.bmod_emod
    omega
  have hne : toI32 (sys.now+length) ≠ -1 := fun he => by
    rw [he] at hmod
    omega
  rw [hmod]
  constructor
  · rintro (he | hlt)
    · exact absurd he hne
    · exact Or.inr ⟨hzero, by omega⟩
  · rintro (he | ⟨-, hlt⟩)
    · exact absurd he hperm
    · exact Or.inr (by omega)

/-- The lock of a queue decides which puts it refuses. -/
theorem lockWindow_of_lock {length : ℕ} (hT : 0 ≤ sys.now) (hlt : sys.now < 2^31)
    (hlength : length < 2^31 ∨ length = 2^32-1) (h : st.q.wlock = wlockValue sys length) :
    LockWindow conf length sys.now st := fun _ _ _ ht ht' hroom =>
  (push_wlock_iff hroom).trans (writeLocked_iff hT hlt hlength h ht ht')

/-- A free name, or a queue that keeps its settings across restarts. -/
inductive LastingSlot (conf : UcmqConf) : Slot → Prop
  | free : LastingSlot conf (.absent none)
  | held {lock : ℤ} {st : Store} (h : Lasting conf lock st) : LastingSlot conf (.listed st)

/-- The queue that a request works on keeps some lock. -/
theorem lasting_of_touched (h : LastingSlot conf slot) (ht : Touched conf slot st) :
    ∃ lock, Lasting conf lock st := by
  cases ht with
  | found =>
    cases h with
    | held h => exact ⟨_, h⟩
  | fresh => exact ⟨0, lasting_created conf⟩

/-- So does a queue that is set. -/
theorem lasting_of_setBy (h : Lasting conf lock st) (hok : sys.Ok) (hset : SetBy sys st st') :
    ∃ lock', Lasting conf lock' st' := by
  cases hset with
  | maxqueue x => exact ⟨_, lasting_setMaxqueue h hok (wlock_column_lt x)⟩
  | delay x => exact ⟨_, lasting_setDelay h hok (wlock_column_lt x)⟩
  | wlock x => exact ⟨_, lasting_setWlock h hok _⟩

/-- One event on any name. -/
theorem lastingSlot_step (h : LastingSlot conf slot) (hg : ReloadableRestarts ev n slot)
    (hstep : SlotStep conf queueOpts n ev rs slot slot') : LastingSlot conf slot' := by
  cases hstep with
  | other => exact h
  | restarted hok hl =>
    cases h with
    | free => exact .free
    | held h =>
      obtain ⟨st', heq, h'⟩ := lasting_restart h hok hg (hl _ rfl)
      rw [Slot.dir, heq]
      exact .held h'
  | handled hok _ _ hh =>
    cases hh with
    | unchanged => exact h
    | put _ ht _ hlen hp =>
      obtain ⟨lock, h'⟩ := lasting_of_touched h ht
      exact .held (lasting_push h' hok hlen hp)
    | get _ hp =>
      cases h with
      | held h => exact .held (lasting_pop h hok hp)
    | set _ ht hset =>
      obtain ⟨lock, h'⟩ := lasting_of_touched h ht
      obtain ⟨lock', h''⟩ := lasting_of_setBy h' hok hset
      exact .held h''
    | removed => exact .free
    | reset => exact .held (lasting_created conf)

/-- A capacity or delay request on a listed queue leaves its lock alone. -/
theorem entry_setting {req : Request} (h : HasSlot s n (.listed st)) (hl : Lasting conf lock st)
    (hok : sys.Ok) (hname : req.name = some n)
    (hopt : req.opt = some "maxqueue" ∨ req.opt = some "delay")
    (hres : mqEvhttpCbDoOptEntry banner sys req s = .ok (rs, s')) :
    ∃ st', HasSlot s' n (.listed st') ∧ Lasting conf lock st' := by
  have htouch := touchQueue_of_listed sys h
  have hstore := store_of_listed h
  unfold mqEvhttpCbDoOptEntry at hres
  split at hres
  · cases hres
    exact ⟨st, h, hl⟩
  rcases hopt with hopt | hopt
  · simp only [hopt, httpOptMaxqueue, hname, Option.getD_some, htouch, hstore] at hres
    split at hres
    · cases hres
      exact ⟨st, h, hl⟩
    split at hres
    · cases hres
      exact ⟨st, h, hl⟩
    · cases hres
      exact ⟨_, hasSlot_setStore h _, lasting_setMaxqueue hl hok (wlock_column_lt _)⟩
  · simp only [hopt, httpOptDelay, hname, Option.getD_some, htouch, hstore] at hres
    split at hres
    · cases hres
      exact ⟨st, h, hl⟩
    · cases hres
      exact ⟨_, hasSlot_setStore h _, lasting_setDelay hl hok (wlock_column_lt _)⟩

/-- One event that does not touch the lock of a listed queue. -/
theorem lasting_step (h : Lasting conf lock st) (hg : LockLeft ev n (.listed st))
    (hs : HasSlot s n (.listed st)) (hserve : serve banner ev s = .ok (rs, s'))
    (hslot : HasSlot s' n slot') (hstep : SlotStep conf queueOpts n ev rs (.listed st) slot') :
    ∃ st', HasSlot s' n (.listed st') ∧ Lasting conf lock st' := by
  obtain ⟨hreload, hkeep⟩ := hg
  cases hstep with
  | other => exact ⟨st, hslot, h⟩
  | restarted hok hl =>
    obtain ⟨st', heq, h'⟩ := lasting_restart h hok hreload (hl _ rfl)
    rw [Slot.dir, heq] at hslot
    exact ⟨st', hslot, h'⟩
  | handled hok hn _ hh =>
    obtain ⟨o, ho, hopt⟩ := hkeep hn
    have hkeeps : ∃ o ∈ ["put", "get", "maxqueue", "delay"], _ = some o := ⟨o, ho, hopt⟩
    cases hh with
    | unchanged => exact ⟨st, hslot, h⟩
    | put _ ht _ hlen hp =>
      cases ht
      exact ⟨_, hslot, lasting_push h hok hlen hp⟩
    | get _ hp => exact ⟨_, hslot, lasting_pop h hok hp⟩
    | set hset =>
      simp only [List.mem_cons, List.not_mem_nil, or_false] at ho
      rcases ho with rfl | rfl | rfl | rfl
      · exact (opts_disjoint hset ⟨"put", List.mem_singleton_self _, hopt⟩ (by decide)).elim
      · exact (opts_disjoint hset ⟨"get", List.mem_singleton_self _, hopt⟩ (by decide)).elim
      · exact entry_setting hs h hok hn (Or.inl hopt) hserve
      · exact entry_setting hs h hok hn (Or.inr hopt) hserve
    | removed hdel => exact (opts_disjoint hkeeps hdel.opt (by decide)).elim
    | reset hdel => exact (opts_disjoint hkeeps hdel.opt (by decide)).elim

/-- The queue of a name keeps its lock and its other settings across restarts. -/
structure LockHeld (conf : UcmqConf) (lock : ℤ) (n : String) (s : Server) : Prop where
  conf_eq : s.conf = conf
  places : ∀ m, ∃ slot, HasSlot s m slot
  held : ∃ st, HasSlot s n (.listed st) ∧ Lasting conf lock st

/-- A name whose restarts can reload it is free or keeps its settings. -/
theorem lastingSlot_of_run
    (h : Run (serve banner) (Guarded queueOpts (ForName conf n ReloadableRestarts))
      (Server.start conf) tr s) :
    ∃ slot, HasSlot s n slot ∧ LastingSlot conf slot :=
  run_place (J := fun _ slot => LastingSlot conf slot) (fun _ ho => ho) .free
    (fun _ _ _ _ _ hJ hg hs => lastingSlot_step hJ hg hs) h

/-- The lock of a queue stays what it is in every run that does not touch it. -/
theorem lockHeld_of_run {s₀ : Server} (hheld : LockHeld conf lock n s₀)
    (h : Run (serve banner) (Guarded queueOpts (ForName conf n LockLeft)) s₀ tr s) :
    LockHeld conf lock n s := by
  refine h.invariant (I := fun _ s => LockHeld conf lock n s) hheld ?_
  rintro tr s ev rs s' ⟨hc, hall, st, hst, hl⟩ ⟨hadm, hG⟩ hserve
  obtain ⟨hc', hsteps⟩ := slotStep_of_serve (fun _ ho => ho) hadm hall hserve
  rw [hc] at hc' hsteps
  refine ⟨hc', fun m => ?_, ?_⟩
  · obtain ⟨slot, hslot⟩ := hall m
    obtain ⟨slot', hslot', -⟩ := hsteps m slot hslot
    exact ⟨slot', hslot'⟩
  · obtain ⟨slot', hslot', hstep⟩ := hsteps n _ hst
    exact lasting_step hl ((hG n _ hst).2 rfl) hst hserve hslot' hstep

/-- Putting back a queue whose lock was set. -/
theorem lockHeld_setWlock
    (h : Run (serve banner) (Guarded queueOpts (ForName conf n ReloadableRestarts))
      (Server.start conf) tr s)
    (hslot : HasSlot s n (.listed st)) (hok : sys.Ok) (length : ℕ) :
    LockHeld conf (wlockValue sys length) n (s.setStore n (mqQmSetWlock sys length st)) := by
  obtain ⟨hc, hall⟩ := places_of_run (fun _ ho => ho) h
  obtain ⟨slot, hs, hl⟩ := lastingSlot_of_run h
  obtain rfl := hasSlot_unique hslot hs
  have hput := hasSlot_setStore hslot (mqQmSetWlock sys length st)
  cases hl with
  | held hl =>
    refine ⟨hc, fun m => ?_, _, hput, lasting_setWlock hl hok length⟩
    by_cases hm : m = n
    · rw [hm]
      exact ⟨_, hput⟩
    · obtain ⟨slot, hslot'⟩ := hall m
      exact ⟨slot, (sameElsewhere_setStore s n _).hasSlot hm hslot'⟩

/-- A setting adds one record to the log and moves no cursor. -/
theorem log_of_setResult {finished pend : List (Msg conf)} {t : List Char}
    (h : Sound conf True st finished pend) (hset : SetResult st st')
    (ht : st.dir.rtag st.q.curRdb.curIndex = some t) :
    st'.q.curWdb.curIndex = st.q.curWdb.curIndex ∧
      ∃ t', st'.dir.rtag st'.q.curRdb.curIndex = some t' ∧ t'.length = t.length+61 := by
  obtain ⟨maxque, delay, wlock, hm, hd, hlo, hup, hrec⟩ := hset
  obtain ⟨u, hu, hrt⟩ := hrec.rtag
  obtain rfl : u = t := Option.some.inj (hu.symm.trans ht)
  have hlen := length_rtagText (sound_setSettings h hm hd hlo hup).typed
  refine ⟨by rw [hrec.q]; rfl, u ++ rtagText (rtagItem (setSettings st maxque delay wlock).q), ?_,
    by rw [List.length_append, hlen]⟩
  rw [hrec.q, hrt]
  exact Function.update_self _ _ _

/-- A queue whose position log has at least 2^31 bytes, but less than 2^32, is not
loaded again. -/
theorem reloaded_of_long {finished pend : List (Msg conf)} {listing : List Fname} {t : List Char}
    (h : Sound conf True st finished pend) (hl : IsListing st.dir listing)
    (hw : st.q.curWdb.curIndex < 10^12) (ht : st.dir.rtag st.q.curRdb.curIndex = some t)
    (hge : 2^31 ≤ t.length) (hlt : t.length < 2^32) :
    reloaded conf sys listing (some st.dir) = .absent (some st.dir) := by
  have hfind := (chosen_of_layout (layout_of_sound h) hw sys hl).found
  have hneg : toI32 (t.length : ℤ) ≤ 0 := by
    have hpos := toI32_pos_iff t.length
    omega
  simp only [reloaded, openQueue, hfind, fnameIndex, mqSmRtagOpenFile, ht, if_pos hneg]

/-- After a lock was set, puts are refused for it exactly in its window, in every
run that does not touch the lock, whose restarts find the queue in order and
whose puts leave no write file released. -/
theorem lock_window {length : ℕ}
    (h : Run (serve banner) (Guarded queueOpts (ForName conf n ReloadableRestarts))
      (Server.start conf) tr s)
    (hslot : HasSlot s n (.listed st)) (hok : sys.Ok) (hT : 0 ≤ sys.now) (hlt : sys.now < 2^31)
    (hlength : length < 2^31 ∨ length = 2^32-1)
    (h' : Run (serve banner) (Guarded queueOpts (ForName conf n LockLeft))
      (s.setStore n (mqQmSetWlock sys length st)) tr' s') :
    ∃ st', HasSlot s' n (.listed st') ∧ LockWindow conf length sys.now st' := by
  obtain ⟨-, -, st', hst', hlasting⟩ := lockHeld_of_run (lockHeld_setWlock h hslot hok length) h'
  exact ⟨st', hst', lockWindow_of_lock hT hlt hlength hlasting.lock_eq⟩

/-- A lock of 100 seconds set at reading 5, on a queue with two files, is still in
force in its window after a restart. -/
theorem lock_window_restarted : ∃ (tr tr' : History) (s s' : Server) (st st' : Store),
    Run (serve "") (Guarded queueOpts (ForName .least "q" ReloadableRestarts))
      (Server.start .least) tr s ∧
      HasSlot s "q" (.listed st) ∧ st.q.curWdb.curIndex = 2 ∧ tr'.length = 1 ∧
      Run (serve "") (Guarded queueOpts (ForName .least "q" LockLeft))
        (s.setStore "q" (mqQmSetWlock (Sys.quiet 5 0) 100 st)) tr' s' ∧
      HasSlot s' "q" (.listed st') ∧ LockWindow .least 100 5 st' := by
  have hok := Sys.quiet_ok 5 0
  obtain ⟨big, hbig⟩ := exists_big
  obtain ⟨rs₁, rs₂, rs₃, s, st, hrun₀, -, -, -, honly, -, hlog, -, hwi, finished, pend, hs, -⟩ :=
    @run_at_switch .least (Sys.quiet 0 0) [1] big _ (Sys.quiet_ok 0 0) rfl (by decide) rfl rfl hbig
      (by decide) (by decide) (reloadableRestarts_admits.toAdmits.forName rfl "q")
  have hrun := run_mono queueOpts (by decide) (fun _ _ _ hg => hg) hrun₀
  have hset := setWlock_of_sound hs hok 100
  have hlist := isListing_of_sound (sound_of_set hs hset).1
  obtain ⟨fd, append, off, t, -, -, -, ht, -⟩ := hs.log
  obtain ⟨hw, t', ht', hlen⟩ := log_of_setResult hs hset ht
  have hshort := hlog t ht
  have hreload : Reloadable (.listed (mqQmSetWlock (Sys.quiet 5 0) 100 st)) := by
    refine ⟨fun u hu => ?_, by rw [hw, hwi]; decide⟩
    rw [ht'] at hu
    cases hu
    omega
  have honly' := honly.of_same (sameElsewhere_setStore s "q" _)
    (hasSlot_setStore honly.slot (mqQmSetWlock (Sys.quiet 5 0) 100 st))
  obtain ⟨-, -, st₁, hst₁, hl₁⟩ := lockHeld_setWlock hrun honly.slot hok 100
  cases hasSlot_unique hst₁ honly'.slot
  obtain ⟨st₂, heq, -⟩ := lasting_restart hl₁ hok hreload hlist
  obtain ⟨hadm, honly₂⟩ := honly'.restart queueOpts hok hlist heq
  have hrun' : Run (serve "") (Guarded queueOpts (ForName .least "q" LockLeft))
      (s.setStore "q" (mqQmSetWlock (Sys.quiet 5 0) 100 st)) _ _ :=
    Run.nil.snoc ⟨hadm, fun m slot hslot => ⟨trivial, fun hm => ⟨?_, trivial⟩⟩⟩ rfl
  obtain ⟨st', hst', hwindow⟩ := lock_window hrun honly.slot hok (by decide) (by decide)
    (Or.inl (by decide)) hrun'
  · exact ⟨_, _, s, _, st, st', hrun, honly.slot, hwi, rfl, hrun', hst', hwindow⟩
  · subst hm
    cases hasSlot_unique hslot honly'.slot
    exact hreload

/-- Without a listed name the list is empty. -/
theorem qlist_nil_of_absent (h : ∀ x, ∃ dir, HasSlot s x (.absent dir)) : s.qlist = [] := by
  rw [List.eq_nil_iff_forall_not_mem]
  intro e he
  obtain ⟨dir, habsent⟩ := h e.qname
  cases slot_of_mem he habsent

/-- A lock of 100 seconds set at reading 0 does not refuse a put at reading 1, after
a restart that finds a position log of 2^31 bytes. -/
theorem lock_lost :
    ∃ tr s st tr' s', Run (serve "") (Guarded layoutOpts Requests) (Server.start .least) tr s ∧
      HasSlot s "q" (.listed st) ∧
      Run (serve "") (Guarded queueOpts fun ev _ _ => KeepsLock "q" ev)
        (s.setStore "q" (mqQmSetWlock (Sys.quiet 0 0) 100 st)) tr' s' ∧
      (¬∃ st', HasSlot s' "q" (.listed st') ∧ LockWindow .least 100 0 st') ∧ LockedAt 100 0 1 ∧
      ∃ rs s'', mqEvhttpCbDoOptEntry "" (Sys.quiet 1 0) (Request.of "put" "q" [1]) s' =
        .ok (rs, s'') ∧
        fifoOut (Request.of "put" "q" [1]) rs = .stored := by
  have hok := Sys.quiet_ok 0 0
  obtain ⟨tr, s, st, finished, pend, t, hrun, honly, hs, -, hw, ht, hge, hle⟩ :=
    exists_run_log 35204650
  have hset := setWlock_of_sound hs hok 100
  have hs' := (sound_of_set hs hset).1
  obtain ⟨hw', t', ht', hlen⟩ := log_of_setResult hs hset ht
  obtain ⟨listing, hlist⟩ :
      ∃ listing, IsListing (mqQmSetWlock (Sys.quiet 0 0) 100 st).dir listing :=
    ⟨_, isListing_of_sound hs'⟩
  have honly' := honly.of_same (sameElsewhere_setStore s "q" _)
    (hasSlot_setStore honly.slot (mqQmSetWlock (Sys.quiet 0 0) 100 st))
  obtain ⟨hadm, hconf, hslot, hothers⟩ := honly'.reloads queueOpts hok hlist
  rw [reloaded_of_long hs' hlist (by rw [hw', hw]; decide) ht' (by omega) (by omega)] at hslot
  have hrun' : Run (serve "") (Guarded queueOpts fun ev _ _ => KeepsLock "q" ev)
      (s.setStore "q" (mqQmSetWlock (Sys.quiet 0 0) 100 st)) _ _ :=
    Run.nil.snoc ⟨hadm, fun _ _ _ => trivial⟩ rfl
  refine ⟨tr, s, st, _, _, hrun, honly.slot, hrun', ?_, Or.inr ⟨by decide, by decide⟩, ?_⟩
  · rintro ⟨st', hst', -⟩
    cases hasSlot_unique hslot hst'
  · have hempty := qlist_nil_of_absent fun x => by
      by_cases hx : x = "q"
      · rw [hx]
        exact ⟨_, hslot⟩
      · exact ⟨_, hothers x hx⟩
    obtain ⟨rs, s'', hres, hout, -⟩ :=
      @servesName_first "q" "" (Sys.quiet 1 0) (Request.of "put" "q" [1]) _ _
      1 [1] hslot (Sys.quiet_ok 1 0) (by rw [hconf]; rfl) (by rw [hempty, hconf]; decide)
        (by rw [hconf]; rfl)
      rfl rfl rfl (by decide) (by decide) (by rw [hconf]; decide)
    exact ⟨rs, s'', hres, hout⟩

end Ucmq.WriteLock
