import Ucmq.LinkedChain
import Mathlib.Algebra.Group.Nat.Defs
import Mathlib.Data.List.Nodup
import Mathlib.Order.Nat
import Mathlib.Tactic.Common

/-!
# The hash table of uthash.h

Elements carry a handle with the links of two orders, that of insertion and that
of their bucket. The table doubles its buckets when a chain grows too long, and
stops doing so when two doublings in a row were of little use. Elements are
addresses; the handles of one table are fields by address. Unsigned fields are
32 bits wide. The hash function, and the sizes for which memory is given, are
parameters.
-/

namespace Ucmq.UtHash

open LinkedChain

/-- Ends of the process: an access outside memory or a division by zero, a loop
that outlives its fuel, and the exit of uthash_fatal. -/
inductive Stop where
  | fault
  | fuel
  | exit
  deriving DecidableEq

/-- UT_hash_bucket. -/
structure UTHashBucket (α : Type) where
  /-- First handle of the chain. -/
  hhHead : Option α
  /-- Length of the chain. -/
  count : ℕ
  /-- Multiple of the threshold that the chain may reach, less one. -/
  expandMult : ℕ

/-- UT_hash_table. -/
structure UTHashTable (α : Type) where
  /-- Array of buckets. -/
  buckets : List (UTHashBucket α)
  /-- Number of buckets. -/
  numBuckets : ℕ
  /-- Its logarithm. -/
  log2NumBuckets : ℕ
  /-- Number of elements. -/
  numItems : ℕ
  /-- Last element in the order of insertion. -/
  tail : α
  /-- Length of a chain if all were equal. -/
  idealChainMaxlen : ℕ
  /-- Elements behind that length. -/
  nonidealItems : ℕ
  /-- Doublings in a row that were of little use. -/
  ineffExpands : ℕ
  /-- Whether the buckets are not doubled any more. -/
  noexpand : ℕ

/-- A head pointer and the handles of its elements. -/
structure Hash (α κ : Type) where
  /-- First element, with the table its handle points to. -/
  head : Option (α × UTHashTable α)
  /-- Order of insertion. -/
  app : Links α
  /-- Order of the buckets. -/
  hh : Links α
  /-- Key of an element. -/
  key : α → κ
  /-- Hash of the key. -/
  hashv : α → ℕ

/-- HASH_INITIAL_NUM_BUCKETS. -/
abbrev hashInitialNumBuckets : ℕ := 32

/-- HASH_BKT_CAPACITY_THRESH. -/
abbrev hashBktCapacityThresh : ℕ := 10

/-- HASH_TO_BKT. -/
def hashToBkt (hashv numBkts : ℕ) : ℕ := hashv &&& (numBkts-1)

/-- A bucket of zeroed memory. -/
def UTHashBucket.zero {α : Type} : UTHashBucket α := ⟨none, 0, 0⟩

variable {α κ : Type} [DecidableEq α] [DecidableEq κ]

/-- uthash_malloc, with the check that follows it. -/
def uthashMalloc (mem : ℕ → Bool) (sz : ℕ) : Except Stop Unit :=
  if mem sz then .ok () else .error .exit

/-- HASH_MAKE_TABLE. -/
def hashMakeTable (mem : ℕ → Bool) (add : α) : Except Stop (UTHashTable α) := do
  uthashMalloc mem 64
  uthashMalloc mem (hashInitialNumBuckets*16)
  .ok ⟨.replicate hashInitialNumBuckets .zero, hashInitialNumBuckets, 5, 0, add, 0, 0, 0, 0⟩

/-- State of the loops of an expansion. -/
structure Expansion (α : Type) where
  /-- New array. -/
  newBuckets : List (UTHashBucket α)
  /-- Elements behind the ideal length so far. -/
  nonidealItems : ℕ
  /-- Order of the buckets, old and new. -/
  hh : Links α

/-- Move one handle to the head of its new chain. -/
def expandMove (numBkts ideal : ℕ) (hashv : α → ℕ) (a : α) (x : Expansion α) :
    Except Stop (Expansion α) :=
  let bkt := hashToBkt (hashv a) numBkts
  match x.newBuckets[bkt]? with
  | none => .error .fault
  | some b =>
    let count := (b.count+1)%2^32
    if ideal < count then
      if ideal = 0 then .error .fault
      else .ok ⟨x.newBuckets.set bkt ⟨some a, count, count/ideal⟩, (x.nonidealItems+1)%2^32,
        x.hh.pushFront a b.hhHead⟩
    else .ok ⟨x.newBuckets.set bkt ⟨some a, count, b.expandMult⟩, x.nonidealItems,
      x.hh.pushFront a b.hhHead⟩

/-- Move the handles of one chain. The next handle is read before the move. -/
def expandChain (numBkts ideal : ℕ) (hashv : α → ℕ) :
    ℕ → Option α → Expansion α → Except Stop (Expansion α)
  | _, none, x => .ok x
  | 0, some _, _ => .error .fuel
  | n+1, some a, x => do
    let nxt := x.hh.next a
    let x ← expandMove numBkts ideal hashv a x
    expandChain numBkts ideal hashv n nxt x

/-- The ideal length of a chain after a doubling. -/
def idealChainMaxlen (tbl : UTHashTable α) : ℕ :=
  (tbl.numItems >>> (tbl.log2NumBuckets+1)) +
    if tbl.numItems &&& ((tbl.numBuckets*2)%2^32-1) = 0 then 0 else 1

/-- HASH_EXPAND_BUCKETS. -/
def hashExpandBuckets (mem : ℕ → Bool) (hashv : α → ℕ) (tbl : UTHashTable α) (hh : Links α) :
    Except Stop (UTHashTable α × Links α) := do
  let numBkts := (tbl.numBuckets*2)%2^32
  uthashMalloc mem (numBkts*16)
  let ideal := idealChainMaxlen tbl
  let x ← tbl.buckets.foldlM (fun x b => expandChain numBkts ideal hashv tbl.numItems b.hhHead x)
    ⟨.replicate numBkts .zero, 0, hh⟩
  let ineff := if tbl.numItems >>> 1 < x.nonidealItems then (tbl.ineffExpands+1)%2^32 else 0
  .ok ({ tbl with
    buckets := x.newBuckets
    numBuckets := numBkts
    log2NumBuckets := tbl.log2NumBuckets+1
    idealChainMaxlen := ideal
    nonidealItems := x.nonidealItems
    ineffExpands := ineff
    noexpand := if 1 < ineff then 1 else tbl.noexpand }, x.hh)

/-- HASH_ADD_TO_BKT. -/
def hashAddToBkt (mem : ℕ → Bool) (hashv : α → ℕ) (bkt : ℕ) (add : α) (tbl : UTHashTable α)
    (hh : Links α) :
    Except Stop (UTHashTable α × Links α) :=
  match tbl.buckets[bkt]? with
  | none => .error .fault
  | some b =>
    let count := (b.count+1)%2^32
    let hh := hh.pushFront add b.hhHead
    let tbl := { tbl with buckets := tbl.buckets.set bkt ⟨some add, count, b.expandMult⟩ }
    if ((b.expandMult+1)*hashBktCapacityThresh)%2^32 ≤ count ∧ tbl.noexpand ≠ 1 then
      hashExpandBuckets mem hashv tbl hh
    else .ok (tbl, hh)

/-- HASH_ADD_KEYPTR from where the table and the tail before are known. -/
def hashAddItem (mem : ℕ → Bool) (fcn : κ → ℕ) (k : κ) (add head : α) (tbl : UTHashTable α)
    (tail : Option α) (h : Hash α κ) : Except Stop (Hash α κ) := do
  let hashv := Function.update h.hashv add (fcn k)
  let (tbl, hh) ← hashAddToBkt mem hashv (hashToBkt (fcn k) tbl.numBuckets) add
    { tbl with numItems := (tbl.numItems+1)%2^32 } h.hh
  .ok ⟨some (head, tbl), h.app.pushBack add tail, hh, Function.update h.key add k, hashv⟩

/-- HASH_ADD_KEYPTR. -/
def hashAdd (mem : ℕ → Bool) (fcn : κ → ℕ) (k : κ) (add : α) (h : Hash α κ) :
    Except Stop (Hash α κ) :=
  match h.head with
  | none => do
    let tbl ← hashMakeTable mem add
    hashAddItem mem fcn k add add tbl none h
  | some (head, tbl) => hashAddItem mem fcn k add head { tbl with tail := add } (some tbl.tail) h

/-- HASH_FIND_IN_BKT. -/
def hashFindInBkt (next : α → Option α) (key : α → κ) (k : κ) : ℕ → Option α →
    Except Stop (Option α)
  | _, none => .ok none
  | 0, some _ => .error .fuel
  | n+1, some out => if key out = k then .ok (some out) else hashFindInBkt next key k n (next out)

/-- HASH_FIND. -/
def hashFind (fcn : κ → ℕ) (k : κ) (h : Hash α κ) : Except Stop (Option α) :=
  match h.head with
  | none => .ok none
  | some (_, tbl) =>
    match tbl.buckets[hashToBkt (fcn k) tbl.numBuckets]? with
    | none => .error .fault
    | some b => hashFindInBkt h.hh.next h.key k tbl.numItems b.hhHead

/-- HASH_DEL_IN_BKT. -/
def hashDelInBkt (bkt : ℕ) (del : α) (tbl : UTHashTable α) (hh : Links α) :
    Except Stop (UTHashTable α × Links α) :=
  match tbl.buckets[bkt]? with
  | none => .error .fault
  | some b =>
    let hhHead := if b.hhHead = some del then hh.next del else b.hhHead
    .ok ({ tbl with
        buckets := tbl.buckets.set bkt ⟨hhHead, (b.count+(2^32-1))%2^32, b.expandMult⟩ },
      hh.unlink del)

/-- HASH_DELETE. -/
def hashDelete (del : α) (h : Hash α κ) : Except Stop (Hash α κ) :=
  match h.head with
  | none => .error .fault
  | some (head, tbl) =>
    if h.app.prev del = none ∧ h.app.next del = none then .ok { h with head := none }
    else
      let tail := if del = tbl.tail then h.app.prev del else some tbl.tail
      let head := if (h.app.prev del).isSome then some head else h.app.next del
      match head, tail with
      | some head, some tail => do
        let (tbl, hh) ← hashDelInBkt (hashToBkt (h.hashv del) tbl.numBuckets) del
          { tbl with tail := tail } h.hh
        .ok { h with
          head := some (head, { tbl with numItems := (tbl.numItems+(2^32-1))%2^32 })
          app := h.app.unlink del
          hh := hh }
      | _, _ => .error .fault

/-- HASH_COUNT. -/
def hashCount (h : Hash α κ) : ℕ :=
  match h.head with
  | none => 0
  | some (_, tbl) => tbl.numItems

/-- HASH_ITER with a body that deletes and frees each element: the elements freed. -/
def hashClear : ℕ → Option α → Option α → Hash α κ → Except Stop (List α × Hash α κ)
  | _, none, _, h => .ok ([], h)
  | 0, some _, _, _ => .error .fuel
  | n+1, some el, tmp, h => do
    let h ← hashDelete el h
    let (freed, h) ← hashClear n tmp (tmp.bind h.app.next) h
    .ok (el :: freed, h)

/-- HASH_ITER with a body that leaves the table: the elements visited. -/
def hashIter (next : α → Option α) : ℕ → Option α → Except Stop (List α)
  | _, none => .ok []
  | 0, some _ => .error .fuel
  | n+1, some el => do
    let visited ← hashIter next n (next el)
    .ok (el :: visited)

end Ucmq.UtHash
