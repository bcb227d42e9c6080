import Ucmq.CursorInvariant

/-!
# Layout of a queue directory

Between requests the directory of a queue holds one position log, that of the
read file, and the data files from the read file to the write file. In this
layout the choice of files at start is determined, in whatever order the
directory is listed.
-/

namespace Ucmq.DirectoryLayout

open LabelledRun StoreConfig StoreMsg StoreState StoreFile StoreManage QueueManage StoreInvariant
open HandleFile Recovery QueueSlots RequestEffect ServerRun CleanRestart RotationRuns UnreadCount
open CursorInvariant

/-- Options that neither remove nor reset a queue. -/
def layoutOpts : List String := ["put", "get"] ++ settingOpts

/-- Every listed queue can be reloaded at a restart. -/
def ReloadableRestarts : Event → String → Slot → Prop
  | .request _ _, _, _ => True
  | .restart _ _ _, _, slot => Reloadable slot

/-- Exactly one position log, that of the first data file, and data files
without a gap. -/
structure Layout (dir : Dir) (r w : ℕ) : Prop where
  le : r ≤ w
  rtag : HasRtag dir r
  dbs : HasDbs dir r w

/-- The files chosen at start, their indices, and the order of their names. -/
structure Chosen (sys : Sys) (listing : List Fname) (r w : ℕ) : Prop where
  found : findHandleFile sys listing = some ⟨.rtag r, .db r, .db w⟩
  rtagId : getIdByFname (.rtag r) = r
  readId : getIdByFname (.db r) = r
  writeId : getIdByFname (.db w) = w
  order : ∀ i j, i ≤ w → j ≤ w → (fnameText (.db i) < fnameText (.db j) ↔ i < j)

variable {conf : UcmqConf} {st : Store} {finished pend : List (Msg conf)} {dir : Dir} {r w : ℕ}

/-- The directory of a sound queue has no gap. -/
theorem layout_of_sound (h : Sound conf True st finished pend) :
    Layout st.dir st.q.curRdb.curIndex st.q.curWdb.curIndex := by
  obtain ⟨fd, append, off, t, -, -, -, ht, -⟩ := h.log
  exact ⟨h.files.index_le, hasRtag_of_log h.rtags ht, hasDbs_of_files rfl h.files⟩

/-- In this layout the chosen files do not depend on the order of the listing. -/
theorem chosen_of_layout (h : Layout dir r w) (hw : w < 10^12) (sys : Sys) {listing : List Fname}
    (hl : IsListing dir listing) : Chosen sys listing r w := by
  have hle := h.le
  exact ⟨findHandleFile_of_layout hl h.dbs h.rtag hle hw,
    getIdByFname_eq (.rtag r) (Or.inr rfl) (by omega),
    getIdByFname_eq (.db r) (Or.inl rfl) (by omega),
    getIdByFname_eq (.db w) (Or.inl rfl) (by omega),
    fun i j hi hj => fnameText_db_lt_iff (by omega) (by omega)⟩

/-- The directory of every listed queue has the layout of its cursors, and the
files chosen from it are those of the cursors. -/
theorem directory_layout {banner : String} {tr : History} {s : Server}
    (h : Run (serve banner) (Guarded layoutOpts ReloadableRestarts) (Server.start conf) tr s) :
    ∀ e ∈ s.qlist, ∃ dir, s.dirs e.qname = some dir ∧
      Layout dir e.q.curRdb.curIndex e.q.curWdb.curIndex ∧
      (e.q.curWdb.curIndex < 10^12 → ∀ sys listing, IsListing dir listing →
        Chosen sys listing e.q.curRdb.curIndex e.q.curWdb.curIndex) := by
  intro e he
  obtain ⟨-, hall⟩ := run_slots (J := fun _ _ _ slot => ∃ bodies, Tracked conf False bodies slot)
    (by decide) (fun _ => ⟨[], .free⟩) (fun n ev rs slot slot' _ _ hJ hg hs => by
      obtain ⟨bodies, ht⟩ := hJ
      obtain ⟨bodies', ht', -⟩ := tracked_step ht hs (by decide) (by
        rintro ⟨sys, names, listing, rfl⟩
        exact ⟨hg, by simp⟩)
      exact ⟨bodies', ht'⟩) h
  obtain ⟨slot, hslot, bodies, ht⟩ := hall e.qname
  obtain rfl := slot_of_mem he hslot
  cases ht with
  | held hs _ =>
    have hlay := layout_of_sound hs
    exact ⟨(s.store e).dir, hslot.2, hlay, fun hw sys listing hl => chosen_of_layout hlay hw sys hl⟩

/-- The runs that fill a file meet the condition. -/
theorem reloadableRestarts_admits {sys : Sys} {big : List UInt8} :
    AdmitsRestart conf sys big [1] ReloadableRestarts :=
  ⟨⟨fun _ => trivial, fun _ => trivial, fun _ _ _ => trivial, fun _ _ => trivial⟩,
    fun _ _ _ => trivial, fun _ _ _ hre _ _ _ => hre⟩

/-- A run with a rotation, a get and a restart, and the files chosen from the
directory it leaves. -/
theorem directory_layout_restarted : ∃ tr s, ∃ st : Store, ∃ dir,
    Run (serve "") (Guarded layoutOpts ReloadableRestarts) (Server.start .least) tr s ∧
      s.qlist = [⟨"q", st.proc, st.q⟩] ∧ s.dirs "q" = some dir ∧
      Layout dir st.q.curRdb.curIndex st.q.curWdb.curIndex ∧
      (st.q.curWdb.curIndex < 10^12 → ∀ sys listing, IsListing dir listing →
        Chosen sys listing st.q.curRdb.curIndex st.q.curWdb.curIndex) := by
  obtain ⟨big, hbig⟩ := exists_big
  obtain ⟨tr, s, st, hrun, honly, -, -⟩ := run_least hbig reloadableRestarts_admits
  have hrun' := run_mono layoutOpts (by decide) (fun _ _ _ hg => hg) hrun
  obtain ⟨dir, hdir⟩ := directory_layout hrun' ⟨"q", st.proc, st.q⟩
    (by rw [honly.qlist]; exact List.mem_singleton_self _)
  exact ⟨tr, s, st, dir, hrun', honly.qlist, hdir⟩

end Ucmq.DirectoryLayout
