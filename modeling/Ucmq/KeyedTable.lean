import Ucmq.LabelledRun
import Ucmq.TableInvariant

/-!
# Tables of keyed nodes

Nodes are allocated, added to a hash under the key they carry, found, changed in
place and deleted, where deleting frees the node. As long as a key is added only
when no node has it, the table is the list of its nodes in the order in which
they were added, whatever the hash function and the addresses, and the nodes
allocated are those of the table.
-/

namespace Ucmq.KeyedTable

open LabelledRun UtHash LinkedChain

variable {α κ ν : Type}

/-- A hash, the nodes by address, and the addresses in use. -/
structure Nodes (α κ ν : Type) where
  /-- Head pointer and handles. -/
  hash : Hash α κ
  /-- Contents of a node. -/
  node : α → ν
  /-- Nodes that are allocated. -/
  live : List α

/-- Operations on a table. -/
inductive TableOp (α κ ν : Type) where
  /-- Add a node at an address. -/
  | add (a : α) (v : ν)
  /-- Find a node. -/
  | find (k : κ)
  /-- Find the node with the key of the given one and replace its contents. -/
  | set (v : ν)
  /-- Find a node, delete it and free it. -/
  | del (k : κ)
  /-- Number of nodes. -/
  | num
  /-- Visit all nodes. -/
  | all
  /-- Delete and free all nodes. -/
  | clear

/-- Answers to the operations. -/
inductive Answer (ν : Type) where
  | node (v : Option ν)
  | num (n : ℕ)
  | nodes (l : List ν)

/-- Address of the head. -/
def headOf (h : Hash α κ) : Option α := h.head.map Prod.fst

/-- One operation on the nodes. -/
def tableStep [DecidableEq α] [DecidableEq κ] (mem : ℕ → Bool) (fcn : κ → ℕ) (keyOf : ν → κ)
    (op : TableOp α κ ν) (s : Nodes α κ ν) :
    Except Stop (Answer ν × Nodes α κ ν) :=
  match op with
  | .add a v => do
    let hash ← hashAdd mem fcn (keyOf v) a s.hash
    .ok (.node (some v), ⟨hash, Function.update s.node a v, a :: s.live⟩)
  | .find k => do
    let out ← hashFind fcn k s.hash
    .ok (.node (out.map s.node), s)
  | .set v => do
    let out ← hashFind fcn (keyOf v) s.hash
    .ok (.node (out.map s.node), out.elim s fun a => { s with node := Function.update s.node a v })
  | .del k => do
    let out ← hashFind fcn k s.hash
    let hash ← out.elim (.ok s.hash) fun a => hashDelete a s.hash
    .ok (.node (out.map s.node), ⟨hash, s.node, out.elim s.live s.live.erase⟩)
  | .num => .ok (.num (hashCount s.hash), s)
  | .all => do
    let visited ← hashIter s.hash.app.next (hashCount s.hash) (headOf s.hash)
    .ok (.nodes (visited.map s.node), s)
  | .clear => do
    let (freed, hash) ← hashClear (hashCount s.hash) (headOf s.hash)
      ((headOf s.hash).bind s.hash.app.next) s.hash
    .ok (.nodes (freed.map s.node), ⟨hash, s.node, s.live.filter (· ∉ freed)⟩)

/-- A node is added at an address not in use, under a key that is not found. -/
def Addable [DecidableEq κ] (fcn : κ → ℕ) (keyOf : ν → κ) (s : Nodes α κ ν) (op : TableOp α κ ν) :
    Prop :=
  match op with
  | .add a v => a ∉ s.live ∧ s.live.length+1 < 2^32 ∧ hashFind fcn (keyOf v) s.hash = .ok none
  | _ => True

/-- The operations on the list of the nodes, in the order in which they were added. -/
def listStep [DecidableEq κ] (keyOf : ν → κ) (op : TableOp α κ ν) (l : List ν) :
    Answer ν × List ν :=
  match op with
  | .add _ v => (.node (some v), l ++ [v])
  | .find k => (.node (l.find? fun e => keyOf e = k), l)
  | .set v =>
    (.node (l.find? fun e => keyOf e = keyOf v), l.map fun e => if keyOf e = keyOf v then v else e)
  | .del k => (.node (l.find? fun e => keyOf e = k), l.filter fun e => keyOf e ≠ k)
  | .num => (.num l.length, l)
  | .all => (.nodes l, l)
  | .clear => (.nodes l, [])

/-- A table without nodes. -/
def Nodes.start (app hh : Links α) (key : α → κ) (hashv : α → ℕ) (node : α → ν) : Nodes α κ ν :=
  ⟨⟨none, app, hh, key, hashv⟩, node, []⟩

/-- The nodes of a table are a list with distinct keys, and they are what is
allocated. -/
structure Lists (fcn : κ → ℕ) (keyOf : ν → κ) (s : Nodes α κ ν) (l : List ν) : Prop where
  keys : (l.map keyOf).Nodup
  live : s.live.length = l.length
  holds : ∃ items, Holds fcn s.hash items ∧ l = items.map s.node ∧ s.live.Perm items ∧
    ∀ a ∈ items, s.hash.key a = keyOf (s.node a)

variable {mem : ℕ → Bool} {fcn : κ → ℕ} {keyOf : ν → κ} {s s' : Nodes α κ ν} {l : List ν}

/-- An empty table is the empty list. -/
theorem lists_start (app hh : Links α) (key : α → κ) (hashv : α → ℕ) (node : α → ν) :
    Lists fcn keyOf (Nodes.start app hh key hashv node) [] :=
  ⟨List.nodup_nil, rfl, [], ⟨List.nodup_nil, .nil app, by simp, rfl⟩, rfl, .nil, by simp⟩

/-- Nodes with distinct keys have distinct addresses and contents. -/
theorem eq_of_key {items : List α} (hnd : ((items.map s.node).map keyOf).Nodup) {a b : α}
    (ha : a ∈ items) (hb : b ∈ items) (hk : keyOf (s.node a) = keyOf (s.node b)) : a = b := by
  rw [List.map_map] at hnd
  exact List.inj_on_of_nodup_map hnd ha hb hk

/-- Visiting or clearing takes the nodes in their order. -/
theorem visits [DecidableEq α] {items : List α} (hh : Holds fcn s.hash items) :
    hashIter s.hash.app.next (hashCount s.hash) (headOf s.hash) = .ok items ∧
      ∃ hash, hashClear (hashCount s.hash) (headOf s.hash)
        ((headOf s.hash).bind s.hash.app.next) s.hash =
        .ok (items, hash) ∧ Holds fcn hash [] := by
  have hcount : items.length ≤ hashCount s.hash := Nat.le_of_eq (hashCount_holds hh).symm
  have hhead : headOf s.hash = items.head? := hh.head?
  rw [hhead]
  obtain ⟨hash, hclear, hholds, -⟩ := hashClear_holds hh hcount
  exact ⟨hashIter_walks hh.app.walks hcount, hash, hclear, hholds⟩

variable [DecidableEq κ]

/-- A node with distinct keys around it is found by its key. -/
theorem find?_of_mem (hnd : (l.map keyOf).Nodup) {v : ν} (hv : v ∈ l) :
    (l.find? fun e => keyOf e = keyOf v) = some v := by
  induction l with
  | nil => cases hv
  | cons e l ih =>
    obtain ⟨hnot, hnd⟩ := List.nodup_cons.mp hnd
    by_cases he : keyOf e = keyOf v
    · rcases List.mem_cons.mp hv with rfl | hv
      · simp
      · exact absurd (he ▸ List.mem_map_of_mem hv) hnot
    · rw [List.find?_cons_of_neg (by simpa using he)]
      refine ih hnd ?_
      rcases List.mem_cons.mp hv with rfl | hv
      · exact absurd rfl he
      · exact hv

variable {items : List α}

/-- What a search gives, as a search of the list. -/
theorem find_lists (hh : Holds fcn s.hash items) (hnd : ((items.map s.node).map keyOf).Nodup)
    (hkey : ∀ a ∈ items, s.hash.key a = keyOf (s.node a)) (k : κ) :
    ∃ out, hashFind fcn k s.hash = .ok out ∧
      out.map s.node = ((items.map s.node).find? fun e => keyOf e = k) ∧
      ∀ a, out = some a → a ∈ items ∧ keyOf (s.node a) = k := by
  obtain ⟨out, hfind, hsome, hnone⟩ := hashFind_holds hh k
  have hin : ∀ a, out = some a → a ∈ items ∧ keyOf (s.node a) = k := by
    intro a ha
    obtain ⟨hmem, hk⟩ := hsome a ha
    exact ⟨hmem, (hkey a hmem).symm.trans hk⟩
  refine ⟨out, hfind, ?_, hin⟩
  cases hout : out with
  | none =>
    symm
    refine List.find?_eq_none.mpr fun e he => ?_
    obtain ⟨a, ha, rfl⟩ := List.mem_map.mp he
    rw [← hkey a ha]
    simpa using hnone hout a ha
  | some a =>
    obtain ⟨hmem, rfl⟩ := hin a hout
    exact (find?_of_mem hnd (List.mem_map_of_mem hmem)).symm

variable [DecidableEq α]

/-- Adding a node. -/
theorem add_lists (hmem : Bounded mem) (h : Lists fcn keyOf s l) {a : α} {v : ν}
    (hg : Addable fcn keyOf s (.add a v)) :
    hashAdd mem fcn (keyOf v) a s.hash = .error .exit ∨
      ∃ hash, hashAdd mem fcn (keyOf v) a s.hash = .ok hash ∧
        Lists fcn keyOf ⟨hash, Function.update s.node a v, a :: s.live⟩ (l ++ [v]) := by
  obtain ⟨hkeys, hlen, items, hh, rfl, hlive, hkey⟩ := h
  obtain ⟨hfresh, hroom, hfind⟩ := hg
  have ha : a ∉ items := fun hin => hfresh (hlive.mem_iff.mpr hin)
  obtain ⟨out, hout, hmap, -⟩ := find_lists hh hkeys hkey (keyOf v)
  obtain rfl : out = none := Except.ok.inj (hout.symm.trans hfind)
  rw [hlive.length_eq] at hroom
  refine (hashAdd_holds hmem hh ha hroom (keyOf v)).imp_right ?_
  rintro ⟨hash, hok, hh', hkey'⟩
  have hsame : items.map (Function.update s.node a v) = items.map s.node :=
    List.map_congr_left fun c hc => Function.update_of_ne (by rintro rfl; exact ha hc) _ _
  refine ⟨hash, hok, ?_, by simp [hlen], items ++ [a], hh', ?_, ?_, fun c hc => ?_⟩
  · rw [List.map_append, List.nodup_append]
    refine ⟨hkeys, List.nodup_singleton _, ?_⟩
    rintro x hx y hy rfl
    obtain rfl := List.mem_singleton.mp hy
    obtain ⟨e, he, hek⟩ := List.mem_map.mp hx
    exact absurd hek (by simpa using List.find?_eq_none.mp hmap.symm e he)
  · simp [hsame]
  · exact (hlive.cons a).trans (List.perm_append_singleton a items).symm
  · by_cases hca : c = a
    · subst hca
      simp [hkey']
    · have hin : c ∈ items := by simpa [hca] using hc
      simp [hkey', hca, hkey c hin]

/-- Replacing the contents of a node. -/
theorem set_lists (h : Lists fcn keyOf s l) (v : ν) :
    ∃ out, hashFind fcn (keyOf v) s.hash = .ok out ∧
      out.map s.node = (l.find? fun e => keyOf e = keyOf v) ∧
      Lists fcn keyOf (out.elim s fun a => { s with node := Function.update s.node a v })
        (l.map fun e => if keyOf e = keyOf v then v else e) := by
  obtain ⟨hkeys, hlen, items, hh, rfl, hlive, hkey⟩ := h
  obtain ⟨out, hfind, hmap, hin⟩ := find_lists hh hkeys hkey (keyOf v)
  have hkeys' :
      (((items.map s.node).map fun e => if keyOf e = keyOf v then v else e).map keyOf).Nodup := by
    have heq : ((items.map s.node).map fun e => if keyOf e = keyOf v then v else e).map keyOf =
        (items.map s.node).map keyOf := by
      rw [List.map_map]
      refine List.map_congr_left fun e _ => ?_
      by_cases he : keyOf e = keyOf v <;> simp [he]
    rwa [heq]
  refine ⟨out, hfind, hmap, ?_⟩
  cases out with
  | none =>
    have hnone : ((items.map s.node).map fun e => if keyOf e = keyOf v then v else e) =
        items.map s.node := by
      rw [List.map_congr_left (g := id) fun e he => ?_, List.map_id]
      exact if_neg (by simpa using List.find?_eq_none.mp hmap.symm e he)
    exact ⟨hkeys', by simpa using hlen, items, hh, hnone, hlive, hkey⟩
  | some a =>
    obtain ⟨ha, hka⟩ := hin a rfl
    have hnew : ∀ c ∈ items, Function.update s.node a v c = if keyOf (s.node c) = keyOf v then v
        else s.node c := by
      intro c hc
      by_cases hca : c = a
      · subst hca
        simp [hka]
      · have hne : keyOf (s.node c) ≠ keyOf v :=
          fun heq => hca (eq_of_key hkeys hc ha (heq.trans hka.symm))
        simp [hca, hne]
    refine ⟨hkeys', by simpa using hlen, items, hh, ?_, hlive, fun c hc => ?_⟩
    · rw [List.map_map]
      exact List.map_congr_left fun c hc => (hnew c hc).symm
    · show s.hash.key c = keyOf (Function.update s.node a v c)
      rw [hnew c hc, hkey c hc]
      by_cases hc' : keyOf (s.node c) = keyOf v <;> simp [hc']

/-- Deleting a node. -/
theorem del_lists (h : Lists fcn keyOf s l) (k : κ) :
    ∃ out hash, hashFind fcn k s.hash = .ok out ∧ out.map s.node = (l.find? fun e => keyOf e = k) ∧
      (out.elim (.ok s.hash) fun a => hashDelete a s.hash) = .ok hash ∧
      Lists fcn keyOf ⟨hash, s.node, out.elim s.live s.live.erase⟩
        (l.filter fun e => keyOf e ≠ k) := by
  obtain ⟨hkeys, hlen, items, hh, rfl, hlive, hkey⟩ := h
  obtain ⟨out, hfind, hmap, hin⟩ := find_lists hh hkeys hkey k
  have hkeys' : (((items.map s.node).filter fun e => keyOf e ≠ k).map keyOf).Nodup :=
    hkeys.sublist (List.filter_sublist.map keyOf)
  cases out with
  | none =>
    have hall : ((items.map s.node).filter fun e => keyOf e ≠ k) = items.map s.node := by
      refine List.filter_eq_self.mpr fun e he => ?_
      simpa using List.find?_eq_none.mp hmap.symm e he
    exact ⟨none, s.hash, hfind, hmap, rfl, hkeys',
      by rw [hall]; exact hlen, items, hh, hall, hlive, hkey⟩
  | some a =>
    obtain ⟨ha, hka⟩ := hin a rfl
    obtain ⟨hash, hdel, hh', hkey'⟩ := hashDelete_holds hh ha
    have hrest : ((items.map s.node).filter fun e => keyOf e ≠ k) = (items.erase a).map s.node := by
      rw [hh.nodup.erase_eq_filter, List.filter_map]
      refine congrArg (List.map s.node) (List.filter_congr fun c hc => ?_)
      by_cases hca : c = a
      · simp [hca, hka]
      · have hne : keyOf (s.node c) ≠ k :=
          fun heq => hca (eq_of_key hkeys hc ha (heq.trans hka.symm))
        simp [hca, hne]
    have hlive' : (s.live.erase a).Perm (items.erase a) := hlive.erase a
    refine ⟨some a, hash, hfind, hmap, hdel, hkeys', ?_, items.erase a, hh', hrest, hlive',
      fun c hc => ?_⟩
    · rw [hrest, List.length_map]
      exact hlive'.length_eq
    · show hash.key c = _
      rw [hkey']
      exact hkey c (List.mem_of_mem_erase hc)

/-- An operation answers as on the list and keeps the table, or the process exits. -/
theorem tableStep_lists (hmem : Bounded mem) (h : Lists fcn keyOf s l) {op : TableOp α κ ν}
    (hg : Addable fcn keyOf s op) :
    tableStep mem fcn keyOf op s = .error .exit ∨
      ∃ s', tableStep mem fcn keyOf op s = .ok ((listStep keyOf op l).1, s') ∧
        Lists fcn keyOf s' (listStep keyOf op l).2 := by
  cases op with
  | add a v =>
    rcases add_lists hmem h hg with hexit | ⟨hash, hok, hlists⟩
    · left
      simp only [tableStep, hexit, bind, Except.bind]
    · right
      simp only [tableStep, hok, bind, Except.bind]
      exact ⟨_, rfl, hlists⟩
  | find k =>
    right
    obtain ⟨hkeys, -, items, hh, rfl, -, hkey⟩ := id h
    obtain ⟨out, hfind, hmap, -⟩ := find_lists hh hkeys hkey k
    simp only [tableStep, listStep, hfind, hmap, bind, Except.bind]
    exact ⟨_, rfl, h⟩
  | set v =>
    right
    obtain ⟨out, hfind, hmap, hlists⟩ := set_lists h v
    simp only [tableStep, listStep, hfind, hmap, bind, Except.bind]
    exact ⟨_, rfl, hlists⟩
  | del k =>
    right
    obtain ⟨out, hash, hfind, hmap, hdel, hlists⟩ := del_lists h k
    simp only [tableStep, listStep, hfind, hmap, hdel, bind, Except.bind]
    exact ⟨_, rfl, hlists⟩
  | num =>
    right
    obtain ⟨-, -, items, hh, rfl, -, -⟩ := id h
    simp only [tableStep, listStep, hashCount_holds hh, List.length_map]
    exact ⟨_, rfl, h⟩
  | all =>
    right
    obtain ⟨-, -, items, hh, rfl, -, -⟩ := id h
    simp only [tableStep, listStep, (visits hh).1, bind, Except.bind]
    exact ⟨_, rfl, h⟩
  | clear =>
    right
    obtain ⟨-, -, items, hh, rfl, hlive, -⟩ := id h
    obtain ⟨-, hash, hclear, hholds⟩ := visits hh
    have hfreed : s.live.filter (· ∉ items) = [] :=
      List.filter_eq_nil_iff.mpr fun a ha => by simpa using hlive.mem_iff.mp ha
    simp only [tableStep, listStep, hclear, hfreed, bind, Except.bind]
    exact ⟨_, rfl, List.nodup_nil, rfl, [], hholds, rfl, .nil, by simp⟩

/-- An operation that returns answers as on the list. -/
theorem lists_of_tableStep (hmem : Bounded mem) (h : Lists fcn keyOf s l) {op : TableOp α κ ν}
    (hg : Addable fcn keyOf s op) {o : Answer ν} {s' : Nodes α κ ν}
    (hs : tableStep mem fcn keyOf op s = .ok (o, s')) :
    o = (listStep keyOf op l).1 ∧ Lists fcn keyOf s' (listStep keyOf op l).2 := by
  rcases tableStep_lists hmem h hg with hexit | ⟨s'', hok, hlists⟩
  · rw [hexit] at hs
    cases hs
  · rw [hok] at hs
    cases hs
    exact ⟨rfl, hlists⟩

/-- One that does not return ends the process. -/
theorem exit_of_tableStep (hmem : Bounded mem) (h : Lists fcn keyOf s l) {op : TableOp α κ ν}
    (hg : Addable fcn keyOf s op) {e : Stop} (hs : tableStep mem fcn keyOf op s = .error e) :
    e = .exit := by
  rcases tableStep_lists hmem h hg with hexit | ⟨s'', hok, -⟩
  · rw [hexit] at hs
    cases hs
    rfl
  · rw [hok] at hs
    cases hs

end Ucmq.KeyedTable
