import Ucmq.Crc16
import Ucmq.ReflectedCrc

/-!
# The table of crc16.c bit by bit

Each of the 256 entries is the check of its index as eight bits, so that a byte
taken in by lookup is a byte taken in bit by bit. The checksum of any bytes is
the one of the reflected polynomial from zero, and changes in two adjacent bytes
always show in it.
-/

namespace Ucmq.BitwiseCrc

open Crc16 ReflectedCrc

/-- The polynomial of the table, reflected. -/
def crc16Poly : BitVec 16 := 0xA001#16

/-- The bits of a byte, least significant bit first. -/
def byteBits (b : UInt8) : List Bool := lowBits b.toBitVec 8

/-- The bits of a message. -/
def messageBits (data : List UInt8) : List Bool := data.flatMap byteBits

/-- The polynomial has its highest bit set. -/
theorem msb_crc16Poly : crc16Poly.msb = true := by decide

/-- A byte has eight bits. -/
@[simp] theorem length_byteBits (b : UInt8) : (byteBits b).length = 8 := length_lowBits _ _

/-- Every entry is the check of its index. -/
theorem crc16tab_entry : ∀ i < 256,
    (crc16tab.getD i 0).toBitVec = crcBits crc16Poly 0#16 (lowBits (BitVec.ofNat 16 i) 8) := by
  decide +kernel

/-- The low bits of a byte are those of the word it is widened to. -/
theorem byteBits_eq (b : UInt8) : byteBits b = lowBits b.toUInt16.toBitVec 8 := by
  refine List.map_congr_left fun i hi => ?_
  have hlt := List.mem_range.mp hi
  rw [UInt8.toBitVec_toUInt16, BitVec.getLsbD_setWidth]
  simp
  omega

/-- The low byte of a word has its low bits. -/
theorem lowBits_and (v : UInt16) :
    lowBits (BitVec.ofNat 16 (v &&& 0xff).toNat) 8 = lowBits v.toBitVec 8 := by
  have hmask : ∀ i < 8, (0xff : UInt16).toBitVec.getLsbD i = true := by decide
  have hword : BitVec.ofNat 16 (v &&& 0xff).toNat = v.toBitVec &&& (0xff : UInt16).toBitVec := by
    rw [← UInt16.toBitVec_and, ← UInt16.toNat_toBitVec, BitVec.ofNat_toNat, BitVec.setWidth_eq]
  refine List.map_congr_left fun i hi => ?_
  rw [hword, BitVec.getLsbD_and, hmask i (List.mem_range.mp hi), Bool.and_true]

/-- A byte taken in by lookup is a byte taken in bit by bit. -/
theorem crc16Byte_bitwise (c : UInt16) (b : UInt8) :
    (crc16Byte c b).toBitVec = crcBits crc16Poly c.toBitVec (byteBits b) := by
  have hlt : ((c ^^^ b.toUInt16) &&& 0xff).toNat < 256 := by
    have hmask : (0xff : UInt16).toNat = 2^8-1 := rfl
    rw [UInt16.toNat_and, hmask, Nat.and_two_pow_sub_one_eq_mod]
    exact Nat.mod_lt _ (by decide)
  have hlow := lowBits_and (c ^^^ b.toUInt16)
  rw [UInt16.toBitVec_xor] at hlow
  calc (crc16Byte c b).toBitVec
      = (c.toBitVec >>> 8) ^^^ (crc16tab.getD ((c ^^^ b.toUInt16) &&& 0xff).toNat 0).toBitVec := rfl
    _ = (c.toBitVec >>> 8) ^^^
      crcBits crc16Poly 0#16 (lowBits (c.toBitVec ^^^ b.toUInt16.toBitVec) 8) := by
      rw [crc16tab_entry _ hlt, hlow]
    _ = crcBits crc16Poly c.toBitVec (byteBits b) := by rw [byteBits_eq, crcBits_lookup c.toBitVec]

/-- So are all bytes, from any running value. -/
theorem foldl_crc16Byte (c : UInt16) (data : List UInt8) :
    (data.foldl crc16Byte c).toBitVec = crcBits crc16Poly c.toBitVec (messageBits data) := by
  induction data generalizing c with
  | nil => rfl
  | cons b data ih =>
    have hbits : messageBits (b :: data) = byteBits b ++ messageBits data := List.flatMap_cons
    rw [List.foldl_cons, ih, crc16Byte_bitwise, hbits, crcBits_append]

/-- The checksum of any bytes is the cyclic redundancy check of their bits, each
byte from its least significant bit on, with reflected polynomial 0xA001, from
zero and as it is left. -/
theorem crc16Append_bitwise (data : List UInt8) :
    (crc16Append data).toBitVec = crcBits 0xA001#16 0#16 (data.flatMap byteBits) :=
  foldl_crc16Byte 0 data

/-- A message has eight bits for each byte. -/
theorem length_messageBits (data : List UInt8) : (messageBits data).length = 8*data.length := by
  induction data with
  | nil => rfl
  | cons b data ih =>
    rw [messageBits, List.flatMap_cons, List.length_append, length_byteBits, ← messageBits, ih,
      List.length_cons]
    omega

/-- Bytes are told by their bits. -/
theorem messageBits_inj {xs ys : List UInt8} (h : messageBits xs = messageBits ys) : xs = ys := by
  have hlen : xs.length = ys.length := by
    have := congrArg List.length h
    rw [length_messageBits, length_messageBits] at this
    omega
  induction xs generalizing ys with
  | nil => exact (List.length_eq_zero_iff.mp hlen.symm).symm
  | cons b xs ih =>
    cases ys with
    | nil => exact absurd hlen (by simp)
    | cons c ys =>
      obtain ⟨hb, hxs⟩ := List.append_inj h (by rw [length_byteBits, length_byteBits])
      have hbc : b = c := UInt8.toBitVec_inj.mp (lowBits_injective hb)
      rw [hbc, ih hxs (by simpa using hlen)]

/-- Bytes that differ only within two adjacent ones have different checksums. -/
theorem crc16Append_ne_of_burst (pre post : List UInt8) {xs ys : List UInt8}
    (hlen : xs.length = ys.length) (hxs : xs.length ≤ 2) (hne : xs ≠ ys) :
    crc16Append (pre ++ xs ++ post) ≠ crc16Append (pre ++ ys ++ post) := by
  intro h
  have hbits : ∀ zs : List UInt8, messageBits (pre ++ zs ++ post) =
      messageBits pre ++ messageBits zs ++ messageBits post := by
    intro zs
    rw [messageBits, List.flatMap_append, List.flatMap_append]
    rfl
  have hcheck := congrArg UInt16.toBitVec h
  rw [crc16Append, crc16Append, foldl_crc16Byte, foldl_crc16Byte, hbits, hbits] at hcheck
  refine crcBits_ne_of_burst msb_crc16Poly _ (messageBits pre) (messageBits post) ?_ ?_ ?_ hcheck
  · rw [length_messageBits, length_messageBits, hlen]
  · rw [length_messageBits]
    omega
  · exact fun heq => hne (messageBits_inj heq)

end Ucmq.BitwiseCrc
