import Ucmq.ReadTermination
import Ucmq.WritePath

/-!
# Queues whose files are in reach

A put writes through the mapping of the write file, and a get reads through the
mapping of the read file and of those it moves on to. While these mappings are
live and their files have their full size, no access leaves a file, whatever the
files hold and whichever system calls fail, so both operations return.
-/

namespace Ucmq.MapsInReach

open ByteRegion DecimalText StoreConfig StoreMsg StoreState StoreRtag StoreFile StoreManage
open QueueManage ReadPath WritePath OperationCases ReadTermination QueueStep

/-- Every data file has its full size. -/
def WholeFiles (conf : UcmqConf) (dir : Dir) : Prop :=
  ∀ i f, dir.db i = some f → f.size = maxDbFileSize conf

/-- A file of the directory is mapped at this address. -/
def MappedAt (s : Store) (a i : ℕ) : Prop := s.proc.maps a = some i ∧ s.dir.db i ≠ none

/-- The writer has its file mapped, the reader has a file mapped or holds no
address, and both positions lie within a file. -/
structure InReach (conf : UcmqConf) (s : Store) : Prop where
  whole : WholeFiles conf s.dir
  rmap : ∀ a, s.q.curRdb.mapMem = some a → ∃ i, MappedAt s a i
  wmap : ∃ b, s.q.curWdb.mapMem = some b ∧ b < s.proc.next ∧ MappedAt s b s.q.curWdb.curIndex
  apart : s.q.curRdb.curIndex < s.q.curWdb.curIndex → s.q.curRdb.mapMem ≠ s.q.curWdb.mapMem
  rpos_le : s.q.curRdb.pos ≤ maxDbFileSize conf
  wpos_le : s.q.curWdb.pos ≤ maxDbFileSize conf
  wcount_lt : s.q.curWdb.optCount < 2^32

variable {conf : UcmqConf} {sys : Sys} {s s' : Store} {dir : Dir} {proc : Proc} {item : MsgItem}

/-- Accesses through a mapping depend on files, mappings and references only. -/
theorem InReach.congr (h : InReach conf s) (hdb : s'.dir.db = s.dir.db)
    (hm : s'.proc.maps = s.proc.maps) (hn : s'.proc.next = s.proc.next)
    (hr : s'.q.curRdb.mapMem = s.q.curRdb.mapMem) (hri : s'.q.curRdb.curIndex = s.q.curRdb.curIndex)
    (hw : s'.q.curWdb = s.q.curWdb)
    (hp : s'.q.curRdb.pos ≤ maxDbFileSize conf) : InReach conf s' := by
  have hat : ∀ a i, MappedAt s' a i ↔ MappedAt s a i :=
    fun a i => by rw [MappedAt, MappedAt, hm, hdb]
  refine ⟨?_, ?_, ?_, ?_, hp, ?_, ?_⟩
  · rw [WholeFiles, hdb]
    exact h.whole
  · simp only [hr, hat]
    exact h.rmap
  · simp only [hw, hn, hat]
    exact h.wmap
  · rw [hri, hr, hw]
    exact h.apart
  · rw [hw]
    exact h.wpos_le
  · rw [hw]
    exact h.wcount_lt

/-- A position record changes neither data files nor mappings. -/
theorem rtagWriteItem_data (sys : Sys) (site : RtagSite) (s : Store) :
    (mqSmRtagWriteItem sys site s).2.dir.db = s.dir.db ∧
      (mqSmRtagWriteItem sys site s).2.proc.maps = s.proc.maps ∧
      (mqSmRtagWriteItem sys site s).2.proc.next = s.proc.next := by
  unfold mqSmRtagWriteItem
  split
  · dsimp only
    split <;> exact ⟨rfl, rfl, rfl⟩
  · exact ⟨rfl, rfl, rfl⟩

/-- Recording leaves mappings alone. -/
theorem MappedAt.recorded {a i : ℕ} (h : MappedAt s a i) (sys : Sys) (site : RtagSite) :
    MappedAt (mqSmRtagWriteItem sys site s).2 a i := by
  obtain ⟨hdb, hmaps, -⟩ := rtagWriteItem_data sys site s
  rw [MappedAt, hdb, hmaps]
  exact h

/-- The writer's half of a queue in reach. -/
structure Writable (conf : UcmqConf) (s : Store) : Prop where
  whole : WholeFiles conf s.dir
  wmap : ∃ b i, s.q.curWdb.mapMem = some b ∧ MappedAt s b i
  wcount_lt : s.q.curWdb.optCount < 2^32

/-- A position record keeps the writer's half. -/
theorem Writable.recorded (h : Writable conf s) (sys : Sys) (site : RtagSite) :
    Writable conf (mqSmRtagWriteItem sys site s).2 := by
  obtain ⟨b, i, hb, hm⟩ := h.wmap
  refine ⟨?_, ⟨b, i, ?_, hm.recorded sys site⟩, ?_⟩
  · rw [WholeFiles, (rtagWriteItem_data sys site s).1]
    exact h.whole
  · rw [rtagWriteItem_q]
    exact hb
  · rw [rtagWriteItem_q]
    exact h.wcount_lt

end Ucmq.MapsInReach
