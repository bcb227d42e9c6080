import Ucmq.ReadSwitchCrash

/-!
# What survives a read switch that is cut off

The crash points of a read switch, one by one and then together: before the
first effect and after the last one the queue is loaded with its pending
messages, between the removal of the old log and that of the old data file it is
not loaded at all, and with both logs in place it depends on the listing.
-/

namespace Ucmq.SwitchSurvival

open FramedLog LabelledRun StoreConfig StoreMsg StoreState StoreRtag StoreFile StoreManage
open QueueManage StoreInvariant ReadPath WritePath HandleFile Recovery Evhttp QueueStep QueueSlots
open RequestEffect ServerRun CleanRestart FifoRefinement DeliveryOrder UnreadCount CursorInvariant
open PendingBodies ReadSwitchCrash RotationRuns

variable {conf : UcmqConf} {sys : Sys} {clean : Prop} {s : Store} {finished pend : List (Msg conf)}
variable {listing : List Fname}

/-- The directory after each number of effects of a read switch. -/
theorem crashAfter_readSwitch (hnone : s.dir.rtag (s.q.curRdb.curIndex+1) = none)
    (ht : (rtagItem s.q).Typed) :
    crashAfter (readSwitchEffects s) 1 s.dir = s.dir.setRtag (s.q.curRdb.curIndex+1) (some []) ∧
      crashAfter (readSwitchEffects s) 2 s.dir =
        s.dir.setRtag (s.q.curRdb.curIndex+1) (some (rtagText (switchItem s.q))) ∧
      crashAfter (readSwitchEffects s) 3 s.dir =
        (s.dir.setRtag (s.q.curRdb.curIndex+1) (some (rtagText (switchItem s.q)))).setRtag
          s.q.curRdb.curIndex none ∧
      crashAfter (readSwitchEffects s) 4 s.dir =
        ((s.dir.setRtag (s.q.curRdb.curIndex+1) (some (rtagText (switchItem s.q)))).setRtag
          s.q.curRdb.curIndex none).setDb s.q.curRdb.curIndex none := by
  have hlen := length_rtagText (switchItem_typed ht)
  refine ⟨?_, ?_, ?_, ?_⟩
  all_goals simp [crashAfter, readSwitchEffects, Dir.setRtag, hnone, writeText]

/-- Removal of the old log leaves the next one only. -/
theorem only_next_log {dir : Dir} {r : ℕ} {t : List Char} (hrt : HasRtag dir r) (i : ℕ) :
    (((dir.setRtag (r+1) (some t)).setRtag r none).rtag i).isSome = true ↔ i = r+1 := by
  by_cases hi : i = r
  · subst hi
    simp
  · by_cases hn : i = r+1
    · subst hn
      simp
    · simp [hi, hn, hrt i]

/-- With the next log only, beside the old data file, nothing is loaded. -/
theorem not_survives_next_log {dir : Dir} {r w : ℕ} {t : List Char} {bodies : List (List UInt8)}
    (hdbs : HasDbs dir r w) (hrt : HasRtag dir r) (hlt : r < w) (hw : w < 10^12)
    (hl : IsListing ((dir.setRtag (r+1) (some t)).setRtag r none) listing) :
    ¬Survives conf sys listing ((dir.setRtag (r+1) (some t)).setRtag r none) bodies := by
  have hlogs : ∀ i, (((dir.setRtag (r+1) (some t)).setRtag r none).rtag i).isSome = true ↔
      i ∈ [r+1] := by
    intro i
    rw [List.mem_singleton]
    exact only_next_log hrt i
  have hperm := filter_isRtag_perm hl (List.nodup_singleton _) hlogs
  have hlog : (listing.filter isRtag).foldl (rtagStep sys) none = some (.rtag (r+1)) := by
    rw [List.perm_singleton.mp hperm]
    rfl
  have hdbs' : HasDbs ((dir.setRtag (r+1) (some t)).setRtag r none) r w := hdbs
  have hfind := findHandleFile_of_log hl hdbs' hlt.le hw hlog (by omega)
  rw [if_neg (by omega)] at hfind
  exact not_survives_of_unfound hfind

/-- After the whole switch the queue is restored from its next file. -/
theorem survives_switched (h : Sound conf True s finished pend) (hh : HeadsOk conf s) (hok : sys.Ok)
    (hat : AtReadSwitch conf s) (hw : s.q.curWdb.curIndex < 10^12)
    (hl : IsListing
      (((s.dir.setRtag (s.q.curRdb.curIndex+1) (some (rtagText (switchItem s.q)))).setRtag
        s.q.curRdb.curIndex none).setDb s.q.curRdb.curIndex none) listing) :
    Survives conf sys listing
      (((s.dir.setRtag (s.q.curRdb.curIndex+1) (some (rtagText (switchItem s.q)))).setRtag
        s.q.curRdb.curIndex none).setDb s.q.curRdb.curIndex none)
      (pend.map Msg.body) := by
  have hbehind := hat.behind
  have ht := switchItem_typed h.typed
  have hlen := length_rtagText ht
  have hrange := h.inRange
  have hrest : Restorable conf True
      (((s.dir.setRtag (s.q.curRdb.curIndex+1) (some (rtagText (switchItem s.q)))).setRtag
        s.q.curRdb.curIndex none).setDb s.q.curRdb.curIndex none)
      (s.q.curRdb.curIndex+1) s.q.curWdb.curIndex (switchItem s.q) [] pend := by
    refine ⟨h.files.next hbehind (unread_of_atReadSwitch h hat), rfl, ?_, ?_, hrange.maxque_lt,
      hrange.delay_lt, hrange.wlock_ge, hrange.wlock_lt, hw⟩
    · intro i hi
      by_contra hne
      by_cases hr : i = s.q.curRdb.curIndex
      · simp [hr] at hi
      · simp only [Dir.setDb_rtag, Dir.setRtag_rtag, Function.update_of_ne hr,
          Function.update_of_ne hne] at hi
        exact hr (h.rtags i hi)
    · refine ⟨[], ?_, ?_⟩
      · simp
      · rw [List.nil_append, hlen]
        decide
  refine survives_of_restorable hrest ?_ hok hl
  exact honestHeads_mono hh (Nat.le_succ _) fun i hi => Function.update_of_ne (by omega) _ _

/-- In an orderly run, a get that is killed while it moves the reader to the
next file leaves a directory that is loaded with every pending message exactly
when none or all of the effects were applied, or the two position logs are in
place and the older one is kept. -/
theorem read_switch_survives_iff {banner : String} {tr : History} {srv : Server}
    {n : String} {st : Store}
    (h : Run (serve banner) (Guarded queueOpts (ForName conf n (Orderly conf)))
      (Server.start conf) tr srv)
    (hslot : HasSlot srv n (.listed st)) (hok : sys.Ok)
    (hm : Relation.ReflTransGen (ReadMove conf sys) st s) (hat : AtReadSwitch conf s)
    (hre : Reloadable (.listed s)) {k : ℕ} (hk : k ≤ 4) {sys' : Sys} (hok' : sys'.Ok)
    (hl : IsListing (crashAfter (readSwitchEffects s) k s.dir) listing) :
    Survives conf sys' listing (crashAfter (readSwitchEffects s) k s.dir) (pending n tr) ↔
      k = 0 ∨ k = 4 ∨ (k = 1 ∨ k = 2) ∧ OldLogKept sys' listing s.q.curRdb.curIndex := by
  obtain ⟨slot, hslot', hcounted⟩ := counted_of_run h
  obtain rfl := hasSlot_unique hslot hslot'
  have hbehind := hat.behind
  obtain ⟨ht, hh, -⟩ := hcounted
  generalize pending n tr = bodies at ht
  cases ht with
  | @held _ fin pend hs hlog =>
    have hlogged : Logged conf st fin := by
      rcases hlog with hlog | ⟨-, rfl⟩
      · exact hlog
      · refine absurd hbehind ?_
        rcases hm.cases_head with rfl | ⟨next, hstep, -⟩
        · exact lt_irrefl 1
        · have hend : getDataStep conf sys (created conf) = .ok (.done none { created conf with
              q := { (created conf).q with curRdb := { (created conf).q.curRdb with
                pos := (created conf).q.curWdb.pos }, unreadCount := 0 } }) :=
            if_pos ⟨rfl, le_of_lt (show 128 < 140 by decide)⟩
          rw [ReadMove, hend] at hstep
          cases hstep
    obtain ⟨fin', hs', hl', hmoved⟩ := sound_of_moves hs hlogged hok hm
    have hheads := headsOk_of_moved hh hmoved
    have hnone := next_log_none hs'
    obtain ⟨h1, h2, h3, h4⟩ := crashAfter_readSwitch hnone hs'.typed
    obtain ⟨rpos, hrest⟩ := restorable_of_logged hs' hl' hre.1 hre.2
    have hdbs : HasDbs s.dir s.q.curRdb.curIndex s.q.curWdb.curIndex :=
      hasDbs_of_files rfl hs'.files
    have hrt : HasRtag s.dir s.q.curRdb.curIndex := by
      obtain ⟨t, ht, -⟩ := hrest.log
      exact hasRtag_of_log hrest.rtags ht
    have htext := length_rtagText (switchItem_typed hs'.typed)
    have hcases : k = 0 ∨ k = 1 ∨ k = 2 ∨ k = 3 ∨ k = 4 := by omega
    rcases hcases with rfl | rfl | rfl | rfl | rfl
    · exact iff_of_true (survives_untouched hs' hl' hheads hok' hre hl) (.inl rfl)
    · rw [h1] at hl ⊢
      rw [survives_two_logs_iff hrest hheads hok' hbehind (Nat.zero_le _) hl]
      simp
    · rw [h2] at hl ⊢
      rw [survives_two_logs_iff hrest hheads hok' hbehind htext.le hl]
      simp
    · rw [h3] at hl ⊢
      exact iff_of_false (not_survives_next_log hdbs hrt hbehind hre.2 hl) (by simp)
    · rw [h4] at hl ⊢
      exact iff_of_true (survives_switched hs' hheads hok' hat hre.2 hl) (by simp)

/-- Every directory of a queue can be listed. -/
theorem exists_listing {dir : Dir} {r w : ℕ} (hdbs : HasDbs dir r w) {l : List ℕ} (hn : l.Nodup)
    (hlogs : ∀ i, (dir.rtag i).isSome = true ↔ i ∈ l) : ∃ listing, IsListing dir listing := by
  refine ⟨l.map .rtag ++ (List.range' r (w+1-r)).map .db, ?_, fun f => ?_⟩
  · refine List.nodup_append.mpr ⟨hn.map fun a b h => by cases h; rfl,
      (List.nodup_range' 1).map fun a b h => by cases h; rfl, ?_⟩
    rintro a ha b hb rfl
    obtain ⟨i, -, rfl⟩ := List.mem_map.mp ha
    obtain ⟨j, -, hj⟩ := List.mem_map.mp hb
    cases hj
  · cases f with
    | rtag i => simp [Dir.has, hlogs i]
    | db i =>
      have hi := hdbs i
      simp only [List.mem_append, List.mem_map, reduceCtorEq, and_false, exists_false, false_or,
        Fname.db.injEq, exists_eq_right, List.mem_range'_1, Dir.has, hi]
      omega

/-- A reachable queue whose reader is at the end of its file, and a listing of
its directory. -/
theorem exists_at_switch : ∃ tr s st listing,
    Run (serve "") (Guarded queueOpts (ForName .least "q" (Orderly .least)))
      (Server.start .least) tr s ∧
      HasSlot s "q" (.listed st) ∧ AtReadSwitch .least st ∧ Reloadable (.listed st) ∧
      pending "q" tr = [[1]] ∧ IsListing st.dir listing := by
  obtain ⟨big, hbig⟩ := exists_big
  obtain ⟨rs₁, rs₂, rs₃, s, st, hrun, hout₁, hout₂, hgot, honly, hat, hlog, -, hw, finished,
      pend, hs, -⟩ :=
    @run_at_switch .least _ [1] big _ (Sys.quiet_ok 0 0) rfl (by decide) rfl rfl hbig
      (by decide) (by decide)
      ((orderly_admits hbig).toAdmits.forName rfl "q")
  have hrun' := run_mono queueOpts (by decide) (fun _ _ _ hg => hg) hrun
  refine ⟨_, s, st, _, hrun', honly.slot, hat, reloadable_of_short hlog hw, ?_,
    isListing_of_sound hs⟩
  have hpend :
    pending "q" [(putEvent (Sys.quiet 0 0) big, rs₁), (putEvent (Sys.quiet 0 0) [1], rs₂)] =
      [big, [1]] := by
    have hfirst := @pending_put (Sys.quiet 0 0) rs₁ [] big hout₁
    have hsecond := @pending_put (Sys.quiet 0 0) rs₂ [(putEvent (Sys.quiet 0 0) big, rs₁)] [1] hout₂
    rw [List.nil_append] at hfirst
    rw [List.singleton_append, hfirst] at hsecond
    exact hsecond
  have hthird := @pending_get (Sys.quiet 0 0) rs₃
    [(putEvent (Sys.quiet 0 0) big, rs₁), (putEvent (Sys.quiet 0 0) [1], rs₂)] _ hgot
  rw [hpend] at hthird
  exact hthird

/-- A get killed before its first effect loses nothing. -/
theorem read_switch_survives_untouched : ∃ tr s st listing,
    Run (serve "") (Guarded queueOpts (ForName .least "q" (Orderly .least)))
      (Server.start .least) tr s ∧
      HasSlot s "q" (.listed st) ∧ AtReadSwitch .least st ∧
      Survives .least (Sys.quiet 0 0) listing (crashAfter (readSwitchEffects st) 0 st.dir)
        (pending "q" tr) := by
  obtain ⟨tr, s, st, listing, hrun, hslot, hat, hre, hpend, hl⟩ := exists_at_switch
  exact ⟨tr, s, st, listing, hrun, hslot, hat,
    (read_switch_survives_iff hrun hslot (Sys.quiet_ok 0 0) .refl hat
    hre (Nat.zero_le 4) (Sys.quiet_ok 0 0) hl).mpr (.inl rfl)⟩

/-- A get killed after it removed the old position log loses the message that is
still pending, however the directory is listed. -/
theorem read_switch_loses : ∃ tr s st,
    Run (serve "") (Guarded queueOpts (ForName .least "q" (Orderly .least)))
      (Server.start .least) tr s ∧
      HasSlot s "q" (.listed st) ∧ AtReadSwitch .least st ∧ pending "q" tr = [[1]] ∧
      (∃ listing, IsListing (crashAfter (readSwitchEffects st) 3 st.dir) listing) ∧
      ∀ listing, IsListing (crashAfter (readSwitchEffects st) 3 st.dir) listing →
        ¬Survives .least (Sys.quiet 0 0) listing (crashAfter (readSwitchEffects st) 3 st.dir)
          (pending "q" tr) := by
  obtain ⟨tr, s, st, listing, hrun, hslot, hat, hre, hpend, -⟩ := exists_at_switch
  obtain ⟨finished, pend, hs⟩ := sound_of_run hrun hslot
  have hbehind := hat.behind
  have hnone := next_log_none hs
  obtain ⟨-, -, h3, -⟩ := crashAfter_readSwitch hnone hs.typed
  obtain ⟨fd, append, off, u, -, -, -, hu, -⟩ := hs.log
  have hrt : HasRtag st.dir st.q.curRdb.curIndex := hasRtag_of_log hs.rtags hu
  have hdbs : HasDbs st.dir st.q.curRdb.curIndex st.q.curWdb.curIndex :=
    hasDbs_of_files rfl hs.files
  refine ⟨tr, s, st, hrun, hslot, hat, hpend, ?_, fun listing hl => ?_⟩
  · rw [h3]
    have hdbs' :
      HasDbs ((st.dir.setRtag (st.q.curRdb.curIndex+1) (some (rtagText (switchItem st.q)))).setRtag
        st.q.curRdb.curIndex none) st.q.curRdb.curIndex st.q.curWdb.curIndex := hdbs
    refine exists_listing hdbs' (List.nodup_singleton (st.q.curRdb.curIndex+1)) fun i => ?_
    rw [List.mem_singleton]
    exact only_next_log hrt i
  · rw [h3] at hl ⊢
    exact not_survives_next_log hdbs hrt hbehind hre.2 hl

end Ucmq.SwitchSurvival
