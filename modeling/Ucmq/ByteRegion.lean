import Mathlib.Data.List.Basic
import Mathlib.Order.Nat
import Mathlib.Tactic.Common

/-!
# Byte regions under range reads and range writes

A region assigns a byte to every offset. Reading a range gives a list of
bytes, writing a list replaces exactly the range it covers. These are the
laws a mapped file obeys; no file format is assumed here.
-/

namespace Ucmq.ByteRegion

/-- Byte contents by offset. -/
abbrev Region := ℕ → UInt8

/-- The n bytes from offset p on. -/
def slice (d : Region) (p n : ℕ) : List UInt8 := (List.range n).map fun i => d (p+i)

/-- Replace the bytes from offset p on by the given ones. -/
def writeAt (d : Region) (p : ℕ) (bs : List UInt8) : Region := fun i =>
  if p ≤ i ∧ i < p+bs.length then bs.getD (i-p) 0 else d i

/-- The region holds the given bytes at offset p. -/
def Holds (d : Region) (p : ℕ) (bs : List UInt8) : Prop := slice d p bs.length = bs

/-- Length of a slice. -/
@[simp] theorem slice_length (d : Region) (p n : ℕ) : (slice d p n).length = n := by
  simp [slice]

/-- A range read splits at any inner offset. -/
theorem slice_add (d : Region) (p m n : ℕ) :
    slice d p (m+n) = slice d p m ++ slice d (p+m) n := by
  induction n with
  | zero => simp [slice]
  | succ n ih =>
    have hs : ∀ q k, slice d q (k+1) = slice d q k ++ [d (q+k)] := by
      intro q k
      simp [slice, List.range_succ]
    rw [← Nat.add_assoc, hs, hs, ih, List.append_assoc, Nat.add_assoc]

/-- A range read depends only on the bytes of its range. -/
theorem slice_congr {d e : Region} {p n : ℕ}
    (h : ∀ i, p ≤ i → i < p+n → d i = e i) : slice d p n = slice e p n := by
  apply List.map_congr_left
  intro i hi
  have hn := List.mem_range.mp hi
  exact h (p+i) (by omega) (by omega)

/-- The written range reads back as the written bytes. -/
theorem slice_writeAt (d : Region) (p : ℕ) (bs : List UInt8) :
    slice (writeAt d p bs) p bs.length = bs := by
  apply List.ext_getElem
  · simp
  · intro i h₁ h₂
    simp [slice, writeAt, h₂]

/-- Bytes outside the written range are unchanged. -/
theorem writeAt_outside (d : Region) {p i : ℕ} {bs : List UInt8}
    (h : i < p ∨ p+bs.length ≤ i) : writeAt d p bs i = d i := by
  unfold writeAt
  rw [if_neg]
  omega

/-- Bytes inside the written range come from the list. -/
theorem writeAt_inside (d : Region) {p i : ℕ} {bs : List UInt8}
    (hp : p ≤ i) (hi : i < p+bs.length) : writeAt d p bs i = bs.getD (i-p) 0 := by
  unfold writeAt
  rw [if_pos ⟨hp, hi⟩]

/-- Every byte of a written range satisfies what all listed bytes satisfy. -/
theorem writeAt_inside_forall (d : Region) {p i : ℕ} {bs : List UInt8} {P : UInt8 → Prop}
    (hb : ∀ b ∈ bs, P b) (hp : p ≤ i) (hi : i < p+bs.length) : P (writeAt d p bs i) := by
  have hlt : i-p < bs.length := by omega
  rw [writeAt_inside d hp hi, List.getD, List.getElem?_eq_getElem hlt]
  exact hb _ (List.getElem_mem hlt)

/-- What is written is held. -/
theorem holds_writeAt (d : Region) (p : ℕ) (bs : List UInt8) : Holds (writeAt d p bs) p bs :=
  slice_writeAt d p bs

/-- A held range survives every change outside of it. -/
theorem Holds.congr {d e : Region} {p : ℕ} {bs : List UInt8} (hd : Holds d p bs)
    (h : ∀ i, p ≤ i → i < p+bs.length → d i = e i) : Holds e p bs := by
  unfold Holds
  rw [← slice_congr h]
  exact hd

/-- A held concatenation holds both of its parts. -/
theorem holds_append {d : Region} {p : ℕ} {bs cs : List UInt8} :
    Holds d p (bs ++ cs) ↔ Holds d p bs ∧ Holds d (p+bs.length) cs := by
  unfold Holds
  rw [List.length_append, slice_add]
  constructor
  · intro h
    exact List.append_inj h (slice_length d p bs.length)
  · rintro ⟨hb, hc⟩
    rw [hb, hc]

/-- A held nonempty range starts with the head byte. -/
theorem holds_cons {d : Region} {p : ℕ} {b : UInt8} {bs : List UInt8} :
    Holds d p (b :: bs) ↔ d p = b ∧ Holds d (p+1) bs := by
  have h := @holds_append d p [b] bs
  simpa [Holds, slice] using h

end Ucmq.ByteRegion
