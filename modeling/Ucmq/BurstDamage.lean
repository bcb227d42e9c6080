import Ucmq.BitwiseCrc
import Ucmq.StoreMsg

/-!
# Damage to two adjacent bytes

A frame whose head is intact and whose body was changed within two adjacent bytes
is never taken for a message: its checksum does not match.
-/

namespace Ucmq.BurstDamage

open ByteRegion StoreConfig StoreMsg Crc16 BitwiseCrc

variable {conf : UcmqConf} {item : MsgItem} {d d' : Region} {p b : ℕ}

/-- The body of a frame was changed, and only within two adjacent bytes; its head
was not. -/
structure Burst (d d' : Region) (p len b : ℕ) : Prop where
  /-- The head is untouched. -/
  head : ∀ x, p ≤ x → x < p+12 → d' x = d x
  /-- Bytes of the body other than two adjacent ones are untouched. -/
  others : ∀ x, p+12 ≤ x → x < p+12+len → x ≠ b → x ≠ b+1 → d' x = d x
  /-- Some byte of the body was changed. -/
  changed : ∃ x, p+12 ≤ x ∧ x < p+12+len ∧ d' x ≠ d x

/-- The checksum of the body shows the change. -/
theorem Burst.crc_ne {len : ℕ} (h : Burst d d' p len b) :
    crc16Append (slice d (p+12) len) ≠ crc16Append (slice d' (p+12) len) := by
  obtain ⟨x, hx, hxl, hne⟩ := h.changed
  -- the two bytes, as far as they belong to the body
  obtain ⟨i, j, k, hlen, hj, hi, hk⟩ : ∃ i j k, len = i+j+k ∧ j ≤ 2 ∧
    (∀ y, y < i → p+12+y ≠ b ∧ p+12+y ≠ b+1) ∧
      ∀ y, y < k → p+12+(i+j)+y ≠ b ∧ p+12+(i+j)+y ≠ b+1 := by
    refine ⟨min len (b-(p+12)), min 2 (len-(b-(p+12))), len-(b-(p+12))-2, ?_, ?_, ?_, ?_⟩
    all_goals omega
  have hpre : slice d (p+12) i = slice d' (p+12) i := by
    refine slice_congr fun y hy hyi => ?_
    obtain ⟨h₁, h₂⟩ := hi (y-(p+12)) (by omega)
    exact (h.others y hy (by omega) (by omega) (by omega)).symm
  have hpost : slice d (p+12+(i+j)) k = slice d' (p+12+(i+j)) k := by
    refine slice_congr fun y hy hyk => ?_
    obtain ⟨h₁, h₂⟩ := hk (y-(p+12+(i+j))) (by omega)
    exact (h.others y (by omega) (by omega) (by omega) (by omega)).symm
  rw [hlen, slice_add, slice_add, slice_add, slice_add, ← hpre, ← hpost]
  refine crc16Append_ne_of_burst _ _ (by rw [slice_length, slice_length])
    (by rw [slice_length]; exact hj) ?_
  intro hmid
  have hall : slice d (p+12) len = slice d' (p+12) len := by
    rw [hlen, slice_add, slice_add, slice_add d', slice_add d', hpre, hmid, hpost]
  have hsame := List.map_inj_left.mp hall (x-(p+12)) (List.mem_range.mpr (by omega))
  rw [show p+12+(x-(p+12)) = x by omega] at hsame
  exact hne hsame.symm

/-- The check of a stored frame with such damage reports the checksum, whatever
the body and wherever the frame lies. -/
theorem parseMsg_of_burst (hi : item.Framed) (h : Holds d p (msgBytes item))
    (hp : p+12+item.len ≤ maxDbFileSize conf) (hburst : Burst d d' p item.len b) :
    mqSmDbParseMsg conf (some d') p = .crcErr := by
  obtain ⟨hhead, hbody⟩ := holds_append.mp h
  have hhead' : Holds d' p (msgHead item) := hhead.congr fun x hx hxl => by
    rw [length_msgHead] at hxl
    exact (hburst.head x hx hxl).symm
  rw [length_msgHead, hi.len, List.take_length, Holds, ← hi.len] at hbody
  have hcrc : item.crc16 ≠ crc16Append (slice d' (p+12) item.len) := by
    have hne := hburst.crc_ne
    rwa [hbody, ← hi.crc] at hne
  rw [parseMsg_of_head hi hhead' hp, if_neg hcrc]

/-- The message "ab" as it is stored. -/
def abItem : MsgItem :=
  ⟨msgHeadOfFirstMagicNum, msgHeadOfSecondMagicNum, 7, crc16Append [97, 98], 2, [97, 98]⟩

/-- Its two letters exchanged. -/
theorem parseMsg_of_exchanged : mqSmDbParseMsg UcmqConf.least
    (some (writeAt (writeAt (fun _ => 0) 128 (msgBytes abItem)) 140 [98, 97])) 128 = .crcErr :=
  parseMsg_of_burst (b := 140) ⟨rfl, rfl, by decide, rfl, rfl, by decide⟩
    (holds_writeAt (fun _ => 0) 128 _)
    (by decide)
    ⟨fun x _ hx => writeAt_outside _ (Or.inl (by omega)),
      fun x _ hx _ _ =>
        writeAt_outside _ (Or.inr (by simp only [List.length_cons, List.length_nil]; omega)),
      ⟨140, by decide, by decide, by decide +kernel⟩⟩

end Ucmq.BurstDamage
