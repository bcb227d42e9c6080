import Ucmq.KeyedTable
import Ucmq.QueueManage

/-!
# The queue list in memory

The queue list of mq_queue_manage.c is a hash of nodes under the names of the
queues, with the hash function of HASH_JEN. While a name is added only when it is
not found, the functions on the table answer as those on the list of its nodes.
-/

namespace Ucmq.QueueTable

open LabelledRun LinkedChain UtHash KeyedTable QueueManage

/-- A signed character as an unsigned number. -/
def charU32 (c : UInt8) : UInt32 := if c < 128 then c.toUInt32 else c.toUInt32-256

/-- HASH_JEN_MIX. -/
def hashJenMix (a b c : UInt32) : UInt32 × UInt32 × UInt32 :=
  let a := (a-b-c) ^^^ (c >>> 13)
  let b := (b-c-a) ^^^ (a <<< 8)
  let c := (c-a-b) ^^^ (b >>> 13)
  let a := (a-b-c) ^^^ (c >>> 12)
  let b := (b-c-a) ^^^ (a <<< 16)
  let c := (c-a-b) ^^^ (b >>> 5)
  let a := (a-b-c) ^^^ (c >>> 3)
  let b := (b-c-a) ^^^ (a <<< 10)
  let c := (c-a-b) ^^^ (b >>> 15)
  (a, b, c)

/-- Four characters of a key from an index on, low byte first. A character
behind the end counts nothing. -/
def hashJenWord (key : List UInt8) (i : ℕ) : UInt32 :=
  charU32 (key.getD i 0)+(charU32 (key.getD (i+1) 0) <<< 8)+(charU32 (key.getD (i+2) 0) <<< 16)+
    (charU32 (key.getD (i+3) 0) <<< 24)

/-- The loop of HASH_JEN over blocks of 12 characters, with the block that is
left. Fuel is the length of the key. -/
def hashJenLoop : ℕ → List UInt8 → UInt32 → UInt32 → UInt32 → List UInt8 × UInt32 × UInt32 × UInt32
  | 0, key, i, j, hashv => (key, i, j, hashv)
  | n+1, key, i, j, hashv =>
    if 12 ≤ key.length then
      let (i, j, hashv) :=
        hashJenMix (i+hashJenWord key 0) (j+hashJenWord key 4) (hashv+hashJenWord key 8)
      hashJenLoop n (key.drop 12) i j hashv
    else (key, i, j, hashv)

/-- HASH_JEN. The low byte of the last word is kept for the length. -/
def hashJen (key : List UInt8) : UInt32 :=
  let (rest, i, j, hashv) := hashJenLoop key.length key 0x9e3779b9 0x9e3779b9 0xfeedbeef
  let hashv := hashv+UInt32.ofNat key.length+(hashJenWord rest 8 <<< 8)
  (hashJenMix (i+hashJenWord rest 0) (j+hashJenWord rest 4) hashv).2.2

/-- Hash of a queue name. -/
def qnameHash (qname : String) : ℕ := (hashJen qname.toUTF8.data.toList).toNat

/-- The operations on the list of the queue manager, newest entry first. -/
def qlistStep {α : Type} (op : TableOp α String QueueEntry) (qlist : List QueueEntry) :
    Answer QueueEntry × List QueueEntry :=
  match op with
  | .add _ e => (.node (some e), e :: qlist)
  | .find k => (.node (hashFindQueueByKey k qlist), qlist)
  | .set e => (.node (hashFindQueueByKey e.qname qlist), hashSetQueue e qlist)
  | .del k => (.node (hashFindQueueByKey k qlist), hashDelQueue k qlist)
  | .num => (.num qlist.length, qlist)
  | .all => (.nodes qlist.reverse, qlist)
  | .clear => (.nodes qlist.reverse, [])

/-- With distinct names the first entry of a name is the only one. -/
theorem hashFindQueueByKey_reverse {l : List QueueEntry} (hnd : (l.map QueueEntry.qname).Nodup)
    (k : String) :
    hashFindQueueByKey k l.reverse = l.find? fun e => e.qname = k := by
  have hnd' : (l.reverse.map QueueEntry.qname).Nodup := by
    rw [List.map_reverse, List.nodup_reverse]
    exact hnd
  unfold hashFindQueueByKey
  cases hf : l.find? fun e => e.qname = k with
  | none =>
    refine List.find?_eq_none.mpr fun e he => ?_
    exact List.find?_eq_none.mp hf e (List.mem_reverse.mp he)
  | some e =>
    obtain rfl : e.qname = k := by simpa using List.find?_some hf
    exact find?_of_mem hnd' (List.mem_reverse.mpr (List.mem_of_find?_eq_some hf))

/-- Replacing the first entry of a name replaces the only one. -/
theorem hashSetQueue_eq_map {l : List QueueEntry} (hnd : (l.map QueueEntry.qname).Nodup)
    (e : QueueEntry) :
    hashSetQueue e l = l.map fun x => if x.qname = e.qname then e else x := by
  induction l with
  | nil => rfl
  | cons x l ih =>
    obtain ⟨hnot, hnd⟩ := List.nodup_cons.mp hnd
    by_cases hx : x.qname = e.qname
    · have hrest : ∀ y ∈ l, (if y.qname = e.qname then e else y) = y := by
        intro y hy
        refine if_neg fun heq => hnot ?_
        rw [hx, ← heq]
        exact List.mem_map_of_mem hy
      rw [hashSetQueue, if_pos hx, List.map_cons, if_pos hx,
        List.map_congr_left (g := id) hrest, List.map_id]
    · rw [hashSetQueue, if_neg hx, List.map_cons, if_neg hx, ih hnd]

/-- Deleting the first entry of a name deletes the only one. -/
theorem hashDelQueue_eq_filter {l : List QueueEntry} (hnd : (l.map QueueEntry.qname).Nodup)
    (k : String) :
    hashDelQueue k l = l.filter fun x => x.qname ≠ k := by
  induction l with
  | nil => rfl
  | cons x l ih =>
    obtain ⟨hnot, hnd⟩ := List.nodup_cons.mp hnd
    by_cases hx : x.qname = k
    · have hrest : ∀ y ∈ l, decide (y.qname ≠ k) = true := by
        intro y hy
        refine decide_eq_true fun heq => hnot ?_
        rw [hx, ← heq]
        exact List.mem_map_of_mem hy
      rw [hashDelQueue, if_pos hx, List.filter_cons_of_neg (by simpa using hx),
        List.filter_eq_self.mpr hrest]
    · rw [hashDelQueue, if_neg hx, List.filter_cons_of_pos (by simpa using hx), ih hnd]

/-- On entries with distinct names the two lists answer alike. -/
theorem qlistStep_reverse {α : Type} {l : List QueueEntry} (hnd : (l.map QueueEntry.qname).Nodup)
    (op : TableOp α String QueueEntry) :
    qlistStep op l.reverse =
      ((listStep QueueEntry.qname op l).1, (listStep QueueEntry.qname op l).2.reverse) := by
  have hnd' : (l.reverse.map QueueEntry.qname).Nodup := by
    rw [List.map_reverse, List.nodup_reverse]
    exact hnd
  cases op with
  | add a e => simp [qlistStep, listStep]
  | find k => simp only [qlistStep, listStep, hashFindQueueByKey_reverse hnd]
  | set e =>
    simp only [qlistStep, listStep, hashFindQueueByKey_reverse hnd, hashSetQueue_eq_map hnd',
      List.map_reverse]
  | del k =>
    simp only [qlistStep, listStep, hashFindQueueByKey_reverse hnd, hashDelQueue_eq_filter hnd',
      List.filter_reverse]
  | num => simp [qlistStep, listStep]
  | all => simp [qlistStep, listStep]
  | clear => simp [qlistStep, listStep]

variable {α : Type} {mem : ℕ → Bool} {fcn : String → ℕ} {app hh : Links α} {key : α → String}
  {hashv : α → ℕ} {node : α → QueueEntry} {s : Nodes α String QueueEntry}
  {tr : List (TableOp α String QueueEntry × Answer QueueEntry)}

/-- The nodes of a table that is the list of the queue manager: they are the
entries of the list, and no pointer of the table leads to a node that is not
allocated. -/
theorem live_of_lists {qlist : List QueueEntry} (h : Lists fcn QueueEntry.qname s qlist.reverse) :
    (s.live.map s.node).Perm qlist ∧ PointsInto s.hash s.live := by
  obtain ⟨items, hholds, hitems, hlive, -⟩ := h.holds
  refine ⟨?_, ?_⟩
  · have hnodes : (s.live.map s.node).Perm qlist.reverse := by
      rw [hitems]
      exact hlive.map s.node
    exact hnodes.trans (List.reverse_perm qlist)
  · exact hholds.pointsInto.of_perm hlive.symm

variable [DecidableEq α]

/-- In every run of the queue table, with any hash of the names, in which a name
is added only when it is not found, the table answers as the list, holds the
nodes of the list and no other, points to nothing else, and stops only when
memory is refused. -/
theorem queue_table_refines (hmem : Bounded mem)
    (h : Run (tableStep mem fcn QueueEntry.qname) (Addable fcn QueueEntry.qname)
      (Nodes.start app hh key hashv node) tr s) :
    tr.map Prod.snd = feedAbs qlistStep (tr.map Prod.fst) [] ∧
      (s.live.map s.node).Perm (stateAfter qlistStep (tr.map Prod.fst) []) ∧
      PointsInto s.hash s.live ∧
      ∀ op e, Addable fcn QueueEntry.qname s op →
        tableStep mem fcn QueueEntry.qname op s = .error e → e = .exit := by
  have hzero :
      Lists fcn QueueEntry.qname (Nodes.start app hh key hashv node)
        ([] : List QueueEntry).reverse :=
    lists_start app hh key hashv node
  obtain ⟨hout, hlists⟩ := @Run.simulates _ _ _ _ _ _ _ _ _ _ _ qlistStep (fun _ o => o)
    (fun s qlist => Lists fcn QueueEntry.qname s qlist.reverse) [] hzero (by
      intro s qlist op o s' hlists hg hs
      obtain ⟨ho, hlists'⟩ := lists_of_tableStep hmem hlists hg hs
      have hstep := qlistStep_reverse hlists.keys op
      rw [List.reverse_reverse] at hstep
      rw [hstep]
      exact ⟨ho, by rwa [List.reverse_reverse]⟩) h
  obtain ⟨hperm, hpoints⟩ := live_of_lists hlists
  exact ⟨hout, hperm, hpoints, fun op e hg he => exit_of_tableStep hmem hlists hg he⟩

/-- A machine that gives less than 32 GiB in one piece. -/
def ordinaryMemory (sz : ℕ) : Bool := sz < 2^35

/-- It gives no piece of 32 GiB or more. -/
theorem ordinaryMemory_bounded : Bounded ordinaryMemory := by
  intro sz h
  simpa [ordinaryMemory] using h

/-- Two queues are added and the first is deleted. -/
def threeOps : List (TableOp ℕ String QueueEntry) :=
  [.add 0 ⟨"a", .empty, .zero⟩, .add 1 ⟨"b", .empty, .zero⟩, .del "a"]

/-- A table in memory that holds nothing of use. -/
def blankTable : Nodes ℕ String QueueEntry :=
  .start ⟨fun _ => none, fun _ => none⟩ ⟨fun _ => none, fun _ => none⟩ (fun _ => "") (fun _ => 0)
    fun _ => ⟨"", .empty, .zero⟩

/-- The operations are a run of the table. -/
theorem run_threeOps :
    ∃ (tr : List (TableOp ℕ String QueueEntry × Answer QueueEntry)) (s : Nodes ℕ String QueueEntry),
    tr.map Prod.fst = threeOps ∧ Run (tableStep ordinaryMemory qnameHash QueueEntry.qname)
      (Addable qnameHash QueueEntry.qname) blankTable tr s := by
  have h₀ :
    Run (tableStep ordinaryMemory qnameHash QueueEntry.qname) (Addable qnameHash QueueEntry.qname)
      blankTable [] blankTable := .nil
  have h₁ := h₀.snoc (i := .add 0 ⟨"a", .empty, .zero⟩) (by exact ⟨by decide, by decide, rfl⟩) rfl
  have h₂ := h₁.snoc (i := .add 1 ⟨"b", .empty, .zero⟩) (by exact ⟨by decide, by decide, rfl⟩) rfl
  have h₃ := h₂.snoc (i := .del "a") (by trivial) rfl
  exact ⟨_, _, rfl, h₃⟩

/-- The table answers as the list and keeps the node of the second queue. -/
theorem queue_table_refines_three :
    ∃ (tr : List (TableOp ℕ String QueueEntry × Answer QueueEntry)) (s : Nodes ℕ String QueueEntry),
      tr.map Prod.fst = threeOps ∧ tr.map Prod.snd = feedAbs qlistStep threeOps [] ∧
        s.live.map s.node = [⟨"b", .empty, .zero⟩] ∧ PointsInto s.hash s.live := by
  obtain ⟨tr, s, hops, hrun⟩ := run_threeOps
  obtain ⟨hout, hlive, hpoints, -⟩ := queue_table_refines ordinaryMemory_bounded hrun
  rw [hops] at hout hlive
  exact ⟨tr, s, hops, hout, List.perm_singleton.mp hlive, hpoints⟩

end Ucmq.QueueTable
