import Mathlib.Data.List.Basic
import Mathlib.Logic.Function.Iterate
import Mathlib.Tactic.Common

/-!
# Reflected cyclic redundancy checks

A register of any width takes message bits in at its low end, and the polynomial
is taken off when a one leaves. Feeding the low bits of a word is shifting the
register with the word added, so that a table of the bits that leave replaces
the shifts. A step loses nothing when the polynomial has its top bit: messages
that differ in one burst no longer than the register have different checks.
-/

namespace Ucmq.ReflectedCrc

variable {w : ℕ} {poly : BitVec w}

/-- Shift the register by one bit. -/
def shiftBit (poly r : BitVec w) : BitVec w :=
  if r.getLsbD 0 = true then (r >>> 1) ^^^ poly else r >>> 1

/-- Feed one message bit. -/
def bitStep (poly r : BitVec w) (b : Bool) : BitVec w :=
  if (r.getLsbD 0 ^^ b) = true then (r >>> 1) ^^^ poly else r >>> 1

/-- Feed message bits. -/
def crcBits (poly r : BitVec w) (bits : List Bool) : BitVec w := bits.foldl (bitStep poly) r

/-- The low bits of a word, least significant bit first. -/
def lowBits {n : ℕ} (x : BitVec n) (k : ℕ) : List Bool := (List.range k).map x.getLsbD

/-- The register after a bit in front. -/
@[simp] theorem crcBits_cons (r : BitVec w) (b : Bool) (bs : List Bool) :
    crcBits poly r (b :: bs) = crcBits poly (bitStep poly r b) bs := rfl

/-- The register after two messages. -/
theorem crcBits_append (r : BitVec w) (bs cs : List Bool) :
    crcBits poly r (bs ++ cs) = crcBits poly (crcBits poly r bs) cs := List.foldl_append

/-- Number of the bits. -/
@[simp] theorem length_lowBits {n : ℕ} (x : BitVec n) (k : ℕ) : (lowBits x k).length = k := by
  simp [lowBits]

/-- A word is told by all of its bits. -/
theorem lowBits_injective {n : ℕ} : Function.Injective fun x : BitVec n => lowBits x n := by
  intro x y h
  refine BitVec.eq_of_getLsbD_eq fun i hi => ?_
  exact List.map_inj_left.mp h i (List.mem_range.mpr hi)

/-- The first bit leaves a word shifted by one. -/
theorem lowBits_succ {n : ℕ} (x : BitVec n) (k : ℕ) :
    lowBits x (k+1) = x.getLsbD 0 :: lowBits (x >>> 1) k := by
  rw [lowBits, List.range_succ_eq_map, List.map_cons, List.map_map, lowBits]
  congr 1
  refine List.map_congr_left fun i _ => ?_
  rw [Function.comp_apply, BitVec.getLsbD_ushiftRight, Nat.add_comm]

/-- A bit that is fed with the rest of its word is a shift of the sum. -/
theorem bitStep_xor (r x : BitVec w) :
    bitStep poly r (x.getLsbD 0) ^^^ (x >>> 1) = shiftBit poly (r ^^^ x) := by
  unfold bitStep shiftBit
  rw [BitVec.getLsbD_xor, BitVec.ushiftRight_xor_distrib]
  split_ifs
  · rw [BitVec.xor_assoc, BitVec.xor_comm poly, BitVec.xor_assoc]
  · rfl

/-- Feeding the low bits of a word shifts the register with the word added; the
rest of the word is left. -/
theorem crcBits_lowBits (r x : BitVec w) (k : ℕ) :
    crcBits poly r (lowBits x k) ^^^ (x >>> k) = (shiftBit poly)^[k] (r ^^^ x) := by
  induction k generalizing r x with
  | zero => rfl
  | succ k ih =>
    rw [lowBits_succ, crcBits_cons, Nat.add_comm k 1, BitVec.shiftRight_add, ih, bitStep_xor,
      Nat.add_comm 1 k, Function.iterate_succ_apply]

/-- The bits that leave are looked up, the others move down. -/
theorem crcBits_lookup (r x : BitVec w) (k : ℕ) :
    crcBits poly r (lowBits x k) = (r >>> k) ^^^ crcBits poly 0#w (lowBits (r ^^^ x) k) := by
  have hfeed := @crcBits_lowBits w poly r x k
  have htable := @crcBits_lowBits w poly 0#w (r ^^^ x) k
  rw [BitVec.zero_xor, ← hfeed, BitVec.ushiftRight_xor_distrib, ← BitVec.xor_assoc] at htable
  rw [← (BitVec.xor_left_inj (x >>> k)).mp htable, BitVec.xor_comm]

section Burst

/-- The top bit tells whether the polynomial was taken off. -/
theorem msb_bitStep (hpoly : poly.msb = true) (r : BitVec w) (b : Bool) :
    (bitStep poly r b).msb = (r.getLsbD 0 ^^ b) := by
  have hshift : (r >>> 1).msb = false := by
    rw [BitVec.msb_ushiftRight]
    rfl
  unfold bitStep
  split_ifs with hbit
  · rw [BitVec.msb_xor, hshift, hpoly, hbit]
    rfl
  · rw [hshift, eq_false_of_ne_true hbit]

/-- A step loses nothing when the polynomial has its top bit. -/
theorem bitStep_injective (hpoly : poly.msb = true) (b : Bool) :
    Function.Injective fun r => bitStep poly r b := by
  intro r s h
  have hlow : r.getLsbD 0 = s.getLsbD 0 := by
    have hmsb := congrArg BitVec.msb h
    rw [msb_bitStep hpoly, msb_bitStep hpoly] at hmsb
    exact Bool.xor_left_inj.mp hmsb
  have hrest : r >>> 1 = s >>> 1 := by
    simp only [bitStep, hlow] at h
    split_ifs at h
    · exact (BitVec.xor_left_inj poly).mp h
    · exact h
  refine BitVec.eq_of_getLsbD_eq fun i _ => ?_
  cases i with
  | zero => exact hlow
  | succ i =>
    have hbit := congrArg (·.getLsbD i) hrest
    simpa only [BitVec.getLsbD_ushiftRight, Nat.add_comm 1] using hbit

/-- A shift can be undone. -/
theorem shiftBit_injective (hpoly : poly.msb = true) : Function.Injective (shiftBit poly) := by
  have heq : shiftBit poly = fun r => bitStep poly r false := by
    funext r
    rw [shiftBit, bitStep, Bool.xor_false]
  rw [heq]
  exact bitStep_injective hpoly false

/-- So can the whole message. -/
theorem crcBits_injective (hpoly : poly.msb = true) (bits : List Bool) :
    Function.Injective fun r => crcBits poly r bits := by
  induction bits with
  | nil => exact fun _ _ h => h
  | cons b bs ih => exact fun r s h => bitStep_injective hpoly b (ih h)

/-- Bits that fit in a register are the low bits of a word. -/
theorem exists_lowBits {bits : List Bool} (h : bits.length ≤ w) :
    ∃ x : BitVec w, lowBits x bits.length = bits ∧ x >>> bits.length = 0 := by
  refine ⟨(BitVec.ofBoolListLE bits).setWidth w, ?_, ?_⟩
  · refine List.ext_getElem (length_lowBits _ _) fun i _ hi => ?_
    have hiw : i < w := Nat.lt_of_lt_of_le hi h
    simp only [lowBits, List.getElem_map, List.getElem_range, BitVec.getLsbD_setWidth,
      hiw, decide_true, Bool.true_and, BitVec.getLsbD_ofBoolListLE, List.getD_eq_getElem?_getD,
      List.getElem?_eq_getElem hi, Option.getD_some]
  · refine BitVec.eq_of_getLsbD_eq fun i _ => ?_
    simp [BitVec.getLsbD_ushiftRight]

/-- Different bursts no longer than the register take it to different states. -/
theorem crcBits_burst (hpoly : poly.msb = true) (r : BitVec w) {xs ys : List Bool}
    (hlen : xs.length = ys.length) (hw : xs.length ≤ w)
    (h : crcBits poly r xs = crcBits poly r ys) : xs = ys := by
  obtain ⟨x, hx, hxz⟩ := exists_lowBits hw
  obtain ⟨y, hy, hyz⟩ := exists_lowBits (hlen ▸ hw)
  have hfeed := @crcBits_lowBits w poly r x xs.length
  have hfeed' := @crcBits_lowBits w poly r y xs.length
  rw [hx, hxz, h] at hfeed
  rw [hlen, hy, hyz] at hfeed'
  rw [hlen] at hfeed
  have hsame := ((shiftBit_injective hpoly).iterate ys.length) (hfeed.symm.trans hfeed')
  have hxy : x = y := (BitVec.xor_right_inj r).mp hsame
  rw [← hx, ← hy, hxy, hlen]

/-- Messages that differ in one such burst have different checks. -/
theorem crcBits_ne_of_burst (hpoly : poly.msb = true) (r : BitVec w) (pre post : List Bool)
    {xs ys : List Bool} (hlen : xs.length = ys.length) (hw : xs.length ≤ w) (hne : xs ≠ ys) :
    crcBits poly r (pre ++ xs ++ post) ≠ crcBits poly r (pre ++ ys ++ post) := by
  intro h
  rw [crcBits_append, crcBits_append _ pre, crcBits_append _ _ post, crcBits_append _ pre] at h
  exact hne (crcBits_burst hpoly _ hlen hw (crcBits_injective hpoly post h))

end Burst

end Ucmq.ReflectedCrc
