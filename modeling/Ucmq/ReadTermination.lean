import Ucmq.MapReads
import Ucmq.OperationCases

/-!
# The read loop ends on every content

Every iteration that goes on brings the reader closer to the end of the write
file: it moves inside its file, or it moves to the next file and gives up the
rest of the old one, which is more than it can lose at the start of the new
one. Nothing is assumed about the files, about the order of the indices or about
the outcome of a system call.
-/

namespace Ucmq.ReadTermination

open ByteRegion StoreConfig StoreMsg StoreState StoreRtag StoreFile StoreManage ReadPath
open OperationCases

variable {conf : UcmqConf} {sys : Sys} {s s' : Store} {fuel : ℕ}

/-- Opening a read file keeps both positions. -/
theorem openReadFile_cursor (conf : UcmqConf) (sys : Sys) (i : ℕ) (s : Store) :
    (openReadFile conf sys i s).2.q.curWdb = s.q.curWdb ∧
      (openReadFile conf sys i s).2.q.curRdb.curIndex = s.q.curRdb.curIndex ∧
      (openReadFile conf sys i s).2.q.curRdb.pos = s.q.curRdb.pos := by
  unfold openReadFile
  split
  · exact ⟨rfl, rfl, rfl⟩
  · split <;> exact ⟨rfl, rfl, rfl⟩

/-- A read switch that succeeds moves to the start of the next file, which is
not behind the write file. -/
theorem nextReadFile_of_true (h : getNextReadFile conf sys s = (true, s')) :
    s.q.curRdb.curIndex < s.q.curWdb.curIndex ∧ s'.q.curWdb = s.q.curWdb ∧
      s'.q.curRdb.curIndex = s.q.curRdb.curIndex+1 ∧ s'.q.curRdb.pos = 128 := by
  unfold getNextReadFile at h
  dsimp only at h
  split at h
  · cases h
  · rename_i hle
    split at h
    · cases h
    · have hopen := congrArg Prod.snd h
      dsimp only at hopen
      obtain ⟨hw, hi, hp⟩ := openReadFile_cursor conf sys (s.q.curRdb.curIndex+1) _
      rw [hopen] at hw hi hp
      rw [rtagWriteItem_q] at hw hi hp
      exact ⟨by omega, hw, hi, hp⟩

/-- A check that does not report the end of the file is not made there. -/
theorem pos_lt_of_parse {d : Option Region} {p : ℕ} {ret : MsgCheckRet}
    (hp : p ≤ maxDbFileSize conf) (h : mqSmDbParseMsg conf d p = ret)
    (hr : ret ≠ .lenBey ∧ ret ≠ .msgErr) :
    p+12 < maxDbFileSize conf := by
  cases d with
  | none => exact absurd h.symm hr.2
  | some d =>
    by_contra hge
    exact hr.1 (h.symm.trans (parseMsg_of_end (by omega) hp))

/-- An iteration that goes on keeps the reader inside of its file and brings it
closer to the end. -/
theorem step_decreases (hp : s.q.curRdb.pos ≤ maxDbFileSize conf)
    (h : getDataStep conf sys s = .ok (.again s')) :
    s'.q.curRdb.pos ≤ maxDbFileSize conf ∧ readDistance conf s' < readDistance conf s := by
  have hmax := maxDbFileSize_le conf
  have hmin := le_maxDbFileSize conf
  have hmove : ∀ k, k ≤ 2 → s.q.curRdb.pos+12 < maxDbFileSize conf → 0 < k →
      s' = setReadPos s (u32 (s.q.curRdb.pos+k)) →
      s'.q.curRdb.pos ≤ maxDbFileSize conf ∧ readDistance conf s' < readDistance conf s := by
    rintro k hk hlt hpos rfl
    rw [u32_of_lt (by omega)]
    simp only [setReadPos, readDistance]
    omega
  have hswitch : getNextReadFile conf sys s = (true, s') →
      s'.q.curRdb.pos ≤ maxDbFileSize conf ∧ readDistance conf s' < readDistance conf s := by
    intro hn
    obtain ⟨hlt, hw, hi, hpos⟩ := nextReadFile_of_true hn
    exact ⟨by omega, readDistance_next hlt hw hi hpos⟩
  cases stepTaken_of_ok h with
  | skipped hpos hle hpar hret => exact hmove _ hle (pos_lt_of_parse hp hpar hret) hpos rfl
  | switched hnext => exact hswitch hnext

/-- A single step never runs out of fuel. -/
theorem step_ne_fuel : getDataStep conf sys s ≠ .error .fuel := by
  unfold getDataStep
  split
  · simp
  · split
    · rename_i e he
      rintro ⟨⟩
      unfold Store.mapView at he
      repeat' split at he
      all_goals cases he
    · split
      · split <;> simp
      · simp
      · simp
      · simp
      · split <;> simp
      · split <;> simp

/-- Within the distance of the reader the loop ends, and more iterations would
not change its result. -/
theorem loop_ends (sys : Sys) (hp : s.q.curRdb.pos ≤ maxDbFileSize conf)
    (hf : readDistance conf s < fuel) :
    getDataLoop conf sys fuel s ≠ .error .fuel ∧
      ∀ more, getDataLoop conf sys (fuel+more) s = getDataLoop conf sys fuel s := by
  induction fuel generalizing s with
  | zero => omega
  | succ fuel ih =>
    have hstep : ∀ more, fuel+1+more = fuel+more+1 := fun more => by omega
    have hfuel := @step_ne_fuel conf sys s
    simp only [hstep, getDataLoop]
    cases hres : getDataStep conf sys s with
    | error e =>
      refine ⟨?_, fun _ => rfl⟩
      rw [hres] at hfuel
      simpa using hfuel
    | ok res =>
      cases res with
      | done ret s' => exact ⟨by simp, fun _ => rfl⟩
      | again s' =>
        obtain ⟨hp', hd⟩ := step_decreases hp hres
        exact ih hp' (by omega)

/-- Reading ends after at most one iteration more than the distance of the
reader, whatever the files hold, wherever the cursors are and whichever system
calls fail. -/
theorem get_terminates (sys : Sys) (hp : s.q.curRdb.pos ≤ maxDbFileSize conf) :
    mqSmGetData conf sys s ≠ .error .fuel ∧
      ∀ fuel, readDistance conf s < fuel →
        getDataLoop conf sys fuel s = mqSmGetData conf sys s := by
  obtain ⟨hne, hmore⟩ := loop_ends sys hp (Nat.lt_succ_self (readDistance conf s))
  refine ⟨hne, fun fuel hf => ?_⟩
  obtain ⟨more, rfl⟩ : ∃ more, fuel = readDistance conf s+1+more :=
    ⟨fuel-(readDistance conf s+1), by omega⟩
  exact hmore more

/-- A data file of zeros. -/
def zeroFile : DbFile := ⟨maxDbFileSize .least, fun _ => 0⟩

/-- A queue of two such files, with the reader near the end of the first one. -/
def twoZeroFiles : Store :=
  ⟨((Dir.empty.setDb 1 (some zeroFile)).setDb 2 (some zeroFile)).setRtag 1 (some []),
    ((Proc.empty.openFd (.rtag 1 true 0)).mmap 1).mmap 2,
    { MqQueue.zero with
      rtagFd := some 0, unreadCount := 1
      curRdb := ⟨none, true, some 1, maxDbFileSize .least-16, 0, 1⟩
      curWdb := ⟨none, true, some 2, 140, 0, 2⟩ }⟩

/-- A get scans the rest of the first file, moves on, and comes to its end in the
second one, with any fuel above the distance. -/
theorem get_terminates_two_files :
    ((mqSmGetData .least (Sys.quiet 100 1) twoZeroFiles).toOption.map fun r =>
        (r.1.isNone, r.2.q.curRdb.curIndex, r.2.q.curRdb.pos)) = some (true, 2, 140) ∧
      ∀ fuel, readDistance .least twoZeroFiles < fuel →
        getDataLoop .least (Sys.quiet 100 1) fuel twoZeroFiles =
          mqSmGetData .least (Sys.quiet 100 1) twoZeroFiles :=
  ⟨by decide +kernel, (get_terminates (Sys.quiet 100 1) (Nat.sub_le _ _)).2⟩

end Ucmq.ReadTermination
