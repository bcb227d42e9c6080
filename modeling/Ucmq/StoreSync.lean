import Ucmq.QueueManage
import Mathlib.Data.List.Perm.Subperm

/-!
# The global sync of all queues

The sync of the store walks the queue list and leaves it at the first queue
whose write file is not mapped. The position log of that queue is still synced;
the queues behind it are not.
-/

namespace Ucmq.StoreSync

open StoreState QueueManage

/-- A call that writes back a descriptor, or the first bytes of a mapping. Its
result is only logged. -/
inductive SyncCall where
  | fsync (fd : Option ℕ)
  | msync (mapMem : Option ℕ) (length : ℕ)
  deriving DecidableEq

/-- Sync the write map of a queue. A null map is warned about and synced all
the same. -/
def mqQmDbSync (q : MqQueue) : SyncCall := .msync q.curWdb.mapMem q.curWdb.pos

/-- Sync the store: for each queue the position log, then the write map and the
write file. A queue without a write map ends the walk. -/
def mqQmSyncStore : List QueueEntry → List SyncCall
  | [] => []
  | e :: l =>
    if e.q.curWdb.mapMem = none then [.fsync e.q.rtagFd]
    else .fsync e.q.rtagFd :: .msync e.q.curWdb.mapMem e.q.curWdb.pos :: .fsync e.q.curWdb.fd ::
      mqQmSyncStore l

/-- Calls that make one queue durable. -/
def syncDue (e : QueueEntry) : List SyncCall :=
  .fsync e.q.rtagFd ::
    if e.q.curWdb.mapMem = none then [] else [.msync e.q.curWdb.mapMem e.q.curWdb.pos,
      .fsync e.q.curWdb.fd]

/-- The calls of every queue are made. -/
def SyncsAll (l : List QueueEntry) : Prop := (l.flatMap syncDue).Subperm (mqQmSyncStore l)

/-- A queue without a write map is the last one of the list. -/
def BrokenLast (l : List QueueEntry) : Prop :=
  ∀ pre e post, l = pre ++ e :: post → e.q.curWdb.mapMem = none → post = []

variable {l : List QueueEntry}

/-- No more calls are made than up to a queue without a write map. -/
theorem length_syncStore_le {pre post : List QueueEntry} {e : QueueEntry}
    (hmap : e.q.curWdb.mapMem = none) :
    (mqQmSyncStore (pre ++ e :: post)).length ≤ ((pre ++ [e]).flatMap syncDue).length := by
  induction pre with
  | nil => simp [mqQmSyncStore, syncDue, hmap]
  | cons x pre ih =>
    rw [List.cons_append, List.cons_append, List.flatMap_cons, mqQmSyncStore, syncDue]
    by_cases hx : x.q.curWdb.mapMem = none
    · rw [if_pos hx]
      simp
    · rw [if_neg hx, if_neg hx]
      simpa using ih

/-- Without a queue to stop at, every call is made. -/
theorem syncStore_of_brokenLast (h : BrokenLast l) : mqQmSyncStore l = l.flatMap syncDue := by
  induction l with
  | nil => rfl
  | cons e l ih =>
    have hrest : BrokenLast l := fun pre x post hl => h (e :: pre) x post (by rw [hl]; rfl)
    rw [List.flatMap_cons, mqQmSyncStore, syncDue, ← ih hrest]
    by_cases hmap : e.q.curWdb.mapMem = none
    · obtain rfl := h [] e l rfl hmap
      rw [if_pos hmap, if_pos hmap]
      rfl
    · rw [if_neg hmap, if_neg hmap]
      rfl

/-- The global sync covers every queue exactly when no queue stands behind one
without a write map. -/
theorem syncsAll_iff (l : List QueueEntry) : SyncsAll l ↔ BrokenLast l := by
  constructor
  · rintro hall pre e post rfl hmap
    have hle := hall.length_le.trans (length_syncStore_le hmap)
    cases post with
    | nil => rfl
    | cons x post =>
      simp only [List.flatMap_append, List.flatMap_cons, List.flatMap_nil,
        List.length_append, syncDue, List.length_cons, List.length_nil] at hle
      omega
  · intro h
    rw [SyncsAll, syncStore_of_brokenLast h]

/-- A queue without a write map ahead of a healthy one. -/
theorem healthy_queue_not_synced :
    ¬SyncsAll [⟨"a", Proc.empty, MqQueue.zero⟩,
      ⟨"b", Proc.empty,
        { MqQueue.zero with curWdb := { MqQueue.zero.curWdb with mapMem := some 1 } }⟩] := by
  intro h
  exact absurd h.length_le (by decide)

end Ucmq.StoreSync
