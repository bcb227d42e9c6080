import Mathlib.Algebra.Group.Nat.Defs
import Mathlib.Data.Int.Notation
import Mathlib.Data.List.Basic

/-!
# Configuration and limits of the message store

The part of the global configuration that the store, the queue list and the
handlers read. A configuration carries the bounds that its loader asserts or
that its field types impose. Fixed lengths appear as numerals everywhere in
this development, so that arithmetic can evaluate them: DB_FILE_HEAD_LEN is
128, MSG_HEAD_LEN is 12, RTAG_ITEM_LEN is 60 in columns of 10.
-/

namespace Ucmq.StoreConfig

/-- Part of g_mq_conf read by the store, the queue list and the handlers. -/
structure UcmqConf where
  /-- Reserved free storage in gigabytes. -/
  resStoreSpace : ℕ
  /-- Limit on the number of listed queues. -/
  maxQlistItmes : ℤ
  /-- Accepted puts between two syncs of a write map. -/
  syncInterval : ℤ
  /-- Seconds between two global syncs. -/
  syncTimeInterval : ℤ
  /-- Capacity of a new queue, zero for none. -/
  defMaxQueue : ℕ
  /-- Delivery delay of a new queue in seconds. -/
  defDelay : ℕ
  /-- Data file size in megabytes. -/
  dbFileMaxSize : ℕ
  one_le_dbFileMaxSize : 1 ≤ dbFileMaxSize
  dbFileMaxSize_le : dbFileMaxSize ≤ 64
  defMaxQueue_lt : defMaxQueue < 2^32
  defDelay_lt : defDelay < 2^32

/-- A configuration with the smallest data files, no reserve and no delay. -/
def UcmqConf.least : UcmqConf :=
  ⟨0, 1000, 10, 100, 0, 0, 1, by decide, by decide, by decide, by decide⟩

/-- Reduction to an unsigned 32-bit value. -/
def u32 (n : ℕ) : ℕ := n%2^32

/-- Size of every data file in bytes. -/
def maxDbFileSize (conf : UcmqConf) : ℕ := conf.dbFileMaxSize*1024*1024

/-- First magic byte of a message. -/
abbrev msgHeadOfFirstMagicNum : UInt8 := 0xFE

/-- Second magic byte of a message. -/
abbrev msgHeadOfSecondMagicNum : UInt8 := 0xAC

/-- A number in range keeps its value. -/
theorem u32_of_lt {n : ℕ} (h : n < 2^32) : u32 n = n := Nat.mod_eq_of_lt h

/-- The modulus is positive. -/
theorem u32_modulus_pos : 0 < 2^32 := by decide

/-- A 32-bit value is in range. -/
theorem u32_lt (n : ℕ) : u32 n < 2^32 := Nat.mod_lt _ u32_modulus_pos

/-- A data file has at least one megabyte. -/
theorem le_maxDbFileSize (conf : UcmqConf) : 1048576 ≤ maxDbFileSize conf := by
  have := conf.one_le_dbFileMaxSize
  unfold maxDbFileSize
  omega

/-- A data file has at most 64 megabytes. -/
theorem maxDbFileSize_le (conf : UcmqConf) : maxDbFileSize conf ≤ 67108864 := by
  have := conf.dbFileMaxSize_le
  unfold maxDbFileSize
  omega

end Ucmq.StoreConfig
