import Ucmq.ByteRegion
import Mathlib.Algebra.BigOperators.Group.List.Basic
import Mathlib.Algebra.Order.Group.Int
import Mathlib.Algebra.Ring.Int.Defs

/-!
# Framed records in byte regions and in chains of segments

A framing encodes records as byte strings that start with a marker byte. A
region scans to a list of records when they follow each other, separated only
by bytes that differ from the marker. A chain extends this over numbered
segments, from a read cursor to a write cursor. Bodies are unrestricted: no
statement here looks for the marker inside of a record.
-/

namespace Ucmq.FramedLog

open ByteRegion

/-- Encoding of records with a common first byte and a minimum length. -/
structure Framing (α : Type*) where
  /-- First byte of every encoded record. -/
  mark : UInt8
  /-- Every encoded record is longer than this. -/
  headLen : ℕ
  /-- The encoded record. -/
  enc : α → List UInt8
  /-- Every encoded record starts with the marker. -/
  starts : ∀ a, (enc a).head? = some mark
  /-- Every encoded record exceeds the header. -/
  longer : ∀ a, headLen < (enc a).length

variable {α : Type*} (F : Framing α)

/-- No byte of the range is the marker. -/
def Quiet (mark : UInt8) (d : Region) (p e : ℕ) : Prop := ∀ i, p ≤ i → i < e → d i ≠ mark

/-- From offset p to offset e the region holds exactly these records, with
only quiet bytes before, between and after them. -/
def Framing.Scans (d : Region) : ℕ → List α → ℕ → Prop
  | p, [], e => p ≤ e ∧ Quiet F.mark d p e
  | p, a :: as, e => ∃ s, p ≤ s ∧ Quiet F.mark d p s ∧ Holds d s (F.enc a) ∧
      Framing.Scans d (s+(F.enc a).length) as e

variable {F} {d d' : Region} {p q e : ℕ} {a : α} {as bs : List α}

/-- A part of quiet bytes is quiet. -/
theorem Quiet.mono {mark : UInt8} {p' e' : ℕ} (h : Quiet mark d p e) (hp : p ≤ p') (he : e' ≤ e) :
    Quiet mark d p' e' := fun i hi hl => h i (by omega) (by omega)

/-- So are the same bytes of another region. -/
theorem Quiet.congr {mark : UInt8} (h : Quiet mark d p e)
    (hd : ∀ i, p ≤ i → i < e → d i = d' i) : Quiet mark d' p e := by
  intro i hi hl
  rw [← hd i hi hl]
  exact h i hi hl

/-- Quiet bytes next to quiet bytes are quiet. -/
theorem Quiet.trans {mark : UInt8} (h : Quiet mark d p q) (h' : Quiet mark d q e) :
    Quiet mark d p e := by
  intro i hi hl
  rcases Nat.lt_or_ge i q with hq | hq
  · exact h i hi hq
  · exact h' i hq hl

/-- A written range is quiet when the written bytes are. -/
theorem quiet_writeAt {mark : UInt8} {cs : List UInt8} (hc : ∀ b ∈ cs, b ≠ mark) :
    Quiet mark (writeAt d p cs) p (p+cs.length) := fun _ hi hl =>
  writeAt_inside_forall d hc hi hl

/-- A record starts with the mark. -/
theorem Framing.mark_of_holds (h : Holds d p (F.enc a)) : d p = F.mark := by
  have hs := F.starts a
  cases hb : F.enc a with
  | nil => simp [hb] at hs
  | cons b bs =>
    rw [hb] at h hs
    have hm : b = F.mark := by simpa using hs
    rw [← hm]
    exact (holds_cons.mp h).1

/-- A scan ends behind its start. -/
theorem Framing.Scans.le (h : F.Scans d p as e) : p ≤ e := by
  induction as generalizing p with
  | nil => exact h.1
  | cons a as ih =>
    obtain ⟨s, hs, -, -, hr⟩ := h
    have := ih hr
    omega

/-- A quiet byte under the cursor belongs to no record. -/
theorem Framing.Scans.skip (h : F.Scans d p as e) (hp : p < e) (hm : d p ≠ F.mark) :
    F.Scans d (p+1) as e := by
  cases as with
  | nil => exact ⟨hp, h.2.mono (by omega) le_rfl⟩
  | cons a as =>
    obtain ⟨s, hs, hq, hh, hr⟩ := h
    have hne : p ≠ s := by
      rintro rfl
      exact hm (Framing.mark_of_holds hh)
    exact ⟨s, by omega, hq.mono (by omega) le_rfl, hh, hr⟩

/-- A marker under the cursor is the first byte of the next record. -/
theorem Framing.Scans.frame (h : F.Scans d p as e) (hp : p < e) (hm : d p = F.mark) :
    ∃ a rest, as = a :: rest ∧ Holds d p (F.enc a) ∧ F.Scans d (p+(F.enc a).length) rest e := by
  cases as with
  | nil => exact absurd hm (h.2 p le_rfl hp)
  | cons a as =>
    obtain ⟨s, hs, hq, hh, hr⟩ := h
    have he : s = p := by
      by_contra hne
      exact hq p le_rfl (by omega) hm
    rw [he] at hh hr
    exact ⟨a, as, rfl, hh, hr⟩

/-- No record fits into a range that is not longer than the header. -/
theorem Framing.Scans.nil_of_short (h : F.Scans d p as e) (hs : e ≤ p+F.headLen) : as = [] := by
  cases as with
  | nil => rfl
  | cons a as =>
    obtain ⟨s, hp, -, -, hr⟩ := h
    have := hr.le
    have := F.longer a
    omega

/-- A scan that finds nothing passed over quiet bytes. -/
theorem Framing.Scans.quiet (h : F.Scans d p ([] : List α) e) : Quiet F.mark d p e := h.2

/-- Quiet bytes before the cursor may be given back to it. -/
theorem Framing.Scans.unskip (h : F.Scans d q as e) (hp : p ≤ q) (hq : Quiet F.mark d p q) :
    F.Scans d p as e := by
  cases as with
  | nil => exact ⟨hp.trans h.1, hq.trans h.2⟩
  | cons a as =>
    obtain ⟨s, hs, hq', hh, hr⟩ := h
    exact ⟨s, hp.trans hs, hq.trans hq', hh, hr⟩

/-- A scan goes on where another one ended. -/
theorem Framing.Scans.append (h : F.Scans d p as q) (h' : F.Scans d q bs e) :
    F.Scans d p (as ++ bs) e := by
  induction as generalizing p with
  | nil => exact h'.unskip h.1 h.2
  | cons a as ih =>
    obtain ⟨s, hs, hq, hh, hr⟩ := h
    exact ⟨s, hs, hq, hh, ih hr⟩

/-- Quiet bytes may follow the last record. -/
theorem Framing.Scans.extend (h : F.Scans d p as q) (hq : q ≤ e) (hm : Quiet F.mark d q e) :
    F.Scans d p as e := by
  have hn : F.Scans d q ([] : List α) e := ⟨hq, hm⟩
  simpa using h.append hn

/-- A record written at the end of the scanned range extends the list. -/
theorem Framing.Scans.snoc (h : F.Scans d p as e) (ha : Holds d e (F.enc a)) :
    F.Scans d p (as ++ [a]) (e+(F.enc a).length) :=
  h.append ⟨e, le_rfl, fun i _ _ => by omega, ha, le_rfl, fun i _ _ => by omega⟩

/-- The scanned records depend only on the bytes of the range. -/
theorem Framing.Scans.congr (h : F.Scans d p as e) (hd : ∀ i, p ≤ i → i < e → d i = d' i) :
    F.Scans d' p as e := by
  induction as generalizing p with
  | nil => exact ⟨h.1, h.2.congr hd⟩
  | cons a as ih =>
    obtain ⟨s, hs, hq, hh, hr⟩ := h
    have hl := hr.le
    refine ⟨s, hs, hq.congr fun i hi hj => hd i hi (by omega), ?_, ?_⟩
    · exact hh.congr fun i hi hj => hd i (by omega) (by omega)
    · exact ih hr fun i hi hj => hd i (by omega) hj

/-- The scanned range has room for every record it holds. -/
theorem Framing.Scans.length_mul_le (h : F.Scans d p as e) :
    p+as.length*(F.headLen+1) ≤ e := by
  induction as generalizing p with
  | nil => simpa using h.1
  | cons a as ih =>
    obtain ⟨s, hs, -, -, hr⟩ := h
    have := ih hr
    have := F.longer a
    simp only [List.length_cons, Nat.add_mul]
    omega

/-- Unread records from cursor (i, p) to the write cursor (w, wpos) over
numbered segments. Every segment before the last is scanned to its capacity
and every later segment from its base offset. -/
inductive Chain (F : Framing α) (seg : ℕ → Option Region) (cap base w wpos : ℕ) :
    ℕ → ℕ → List α → Prop
  | last {p : ℕ} {d : Region} {as : List α} (hs : seg w = some d)
      (hr : F.Scans d p as wpos) : Chain F seg cap base w wpos w p as
  | step {i p : ℕ} {d : Region} {as bs : List α} (hi : i < w) (hs : seg i = some d)
      (hr : F.Scans d p as cap) (next : Chain F seg cap base w wpos (i+1) base bs) :
      Chain F seg cap base w wpos i p (as ++ bs)

variable {seg t : ℕ → Option Region} {cap base w wpos i : ℕ}

/-- A chain starts in a file that is not behind the last. -/
theorem Chain.le (h : Chain F seg cap base w wpos i p as) : i ≤ w := by
  cases h with
  | last => exact le_rfl
  | step hi => exact hi.le

/-- The cursor's segment exists. -/
theorem Chain.segment (h : Chain F seg cap base w wpos i p as) : ∃ d, seg i = some d := by
  cases h with
  | last hs => exact ⟨_, hs⟩
  | step _ hs => exact ⟨_, hs⟩

/-- The end of the readable range in the cursor's segment. -/
theorem Chain.pos_le (h : Chain F seg cap base w wpos i p as) :
    p ≤ if i = w then wpos else cap := by
  cases h with
  | last _ hr => simpa using hr.le
  | step hi _ hr => simpa [Nat.ne_of_lt hi] using hr.le

/-- A quiet byte under the cursor is skipped without losing a record. -/
theorem Chain.skip (h : Chain F seg cap base w wpos i p as) (hs : seg i = some d)
    (hp : p < if i = w then wpos else cap) (hm : d p ≠ F.mark) :
    Chain F seg cap base w wpos i (p+1) as := by
  cases h with
  | last hs' hr =>
    obtain rfl : _ = d := Option.some.inj (hs'.symm.trans hs)
    exact .last hs (hr.skip (by simpa using hp) hm)
  | step hi hs' hr next =>
    obtain rfl : _ = d := Option.some.inj (hs'.symm.trans hs)
    exact .step hi hs (hr.skip (by simpa [Nat.ne_of_lt hi] using hp) hm) next

/-- Quiet bytes before the cursor may be given back to it. -/
theorem Chain.unskip (h : Chain F seg cap base w wpos i q as) (hs : seg i = some d) (hp : p ≤ q)
    (hq : Quiet F.mark d p q) : Chain F seg cap base w wpos i p as := by
  cases h with
  | last hs' hr =>
    obtain rfl : _ = d := Option.some.inj (hs'.symm.trans hs)
    exact .last hs (hr.unskip hp hq)
  | step hi hs' hr next =>
    obtain rfl : _ = d := Option.some.inj (hs'.symm.trans hs)
    exact .step hi hs (hr.unskip hp hq) next

/-- Records before the cursor may be given back to it. -/
theorem Chain.unread (h : Chain F seg cap base w wpos i q as) (hs : seg i = some d)
    (hb : F.Scans d p bs q) : Chain F seg cap base w wpos i p (bs ++ as) := by
  cases h with
  | last hs' hr =>
    obtain rfl : _ = d := Option.some.inj (hs'.symm.trans hs)
    exact .last hs (hb.append hr)
  | step hi hs' hr next =>
    obtain rfl : _ = d := Option.some.inj (hs'.symm.trans hs)
    rw [← List.append_assoc]
    exact .step hi hs (hb.append hr) next

/-- A marker under the cursor is the oldest unread record. -/
theorem Chain.frame (h : Chain F seg cap base w wpos i p as) (hs : seg i = some d)
    (hp : p < if i = w then wpos else cap) (hm : d p = F.mark) :
    ∃ a rest, as = a :: rest ∧ Holds d p (F.enc a) ∧
      Chain F seg cap base w wpos i (p+(F.enc a).length) rest := by
  cases h with
  | last hs' hr =>
    obtain rfl : _ = d := Option.some.inj (hs'.symm.trans hs)
    obtain ⟨a, rest, rfl, hh, hr⟩ := hr.frame (by simpa using hp) hm
    exact ⟨a, rest, rfl, hh, .last hs hr⟩
  | @step _ _ _ as bs hi hs' hr next =>
    obtain rfl : _ = d := Option.some.inj (hs'.symm.trans hs)
    obtain ⟨a, rest, rfl, hh, hr⟩ := hr.frame (by simpa [Nat.ne_of_lt hi] using hp) hm
    exact ⟨a, rest ++ bs, rfl, hh, .step hi hs hr next⟩

/-- In the last segment the unread records are those scanned up to the write cursor. -/
theorem Chain.scans_last (h : Chain F seg cap base w wpos w p as) (hs : seg w = some d) :
    F.Scans d p as wpos := by
  cases h with
  | last hs' hr =>
    obtain rfl : _ = d := Option.some.inj (hs'.symm.trans hs)
    exact hr
  | step hi => exact absurd hi (Nat.lt_irrefl _)

/-- Nothing is unread once less than a header separates the two cursors. -/
theorem Chain.nil_of_short (h : Chain F seg cap base w wpos w p as)
    (hp : wpos ≤ p+F.headLen) : as = [] := by
  cases h with
  | last _ hr => exact hr.nil_of_short hp
  | step hi => exact absurd hi (Nat.lt_irrefl _)

/-- At the end of a full segment all unread records are in later ones. -/
theorem Chain.next (h : Chain F seg cap base w wpos i p as) (hi : i < w)
    (hp : cap ≤ p+F.headLen) : Chain F seg cap base w wpos (i+1) base as := by
  cases h with
  | last => exact absurd hi (Nat.lt_irrefl _)
  | step _ _ hr next =>
    rw [hr.nil_of_short hp]
    exact next

/-- The chain depends only on segment bytes from the base offset on, in the last
segment up to the write cursor. -/
theorem Chain.congr (h : Chain F seg cap base w wpos i p as) (hp : base ≤ p)
    (hd : ∀ j d, i ≤ j → j ≤ w → seg j = some d →
      ∃ d', t j = some d' ∧ ∀ k, base ≤ k → (j = w → k < wpos) → d k = d' k) :
    Chain F t cap base w wpos i p as := by
  induction h with
  | last hs hr =>
    obtain ⟨d', hd', he⟩ := hd w _ le_rfl le_rfl hs
    exact .last hd' (hr.congr fun k hk hl => he k (by omega) fun _ => hl)
  | step hi hs hr _ ih =>
    obtain ⟨d', hd', he⟩ := hd _ _ le_rfl hi.le hs
    refine .step hi hd'
      (hr.congr fun k hk _ => he k (by omega) fun hj => absurd hj (Nat.ne_of_lt hi))
      (ih le_rfl ?_)
    intro j d hj hw hsj
    exact hd j d (by omega) hw hsj

/-- A record written at the write cursor becomes the newest unread one. -/
theorem Chain.snoc (h : Chain F seg cap base w wpos i p as) (hb : base ≤ p)
    (hd : ∀ j d, i ≤ j → j < w → seg j = some d → t j = some d)
    (hw : ∀ d, seg w = some d → ∃ d', t w = some d' ∧ Holds d' wpos (F.enc a) ∧
      ∀ k, base ≤ k → k < wpos → d k = d' k) :
    Chain F t cap base w (wpos+(F.enc a).length) i p (as ++ [a]) := by
  induction h with
  | last hs hr =>
    obtain ⟨d', hd', hh, he⟩ := hw _ hs
    exact .last hd' ((hr.congr fun k hk hl => he k (by omega) hl).snoc hh)
  | step hi hs hr _ ih =>
    rw [List.append_assoc]
    refine .step hi (hd _ _ le_rfl hi hs) hr (ih le_rfl ?_)
    intro j d hj hw hsj
    exact hd j d (by omega) hw hsj

/-- A new empty segment moves the write cursor without changing what is
unread, provided the rest of the old segment is quiet. -/
theorem Chain.rotate {wpos' : ℕ} {d₀ : Region} (h : Chain F seg cap base w wpos i p as)
    (hcap : wpos ≤ cap) (hq : ∀ d, seg w = some d → Quiet F.mark d wpos cap)
    (hn : seg (w+1) = some d₀) (hb : base ≤ wpos') (hq₀ : Quiet F.mark d₀ base wpos') :
    Chain F seg cap base (w+1) wpos' i p as := by
  induction h with
  | last hs hr =>
    have hend : Chain F seg cap base (w+1) wpos' (w+1) base [] := .last hn ⟨hb, hq₀⟩
    simpa using Chain.step (Nat.lt_succ_self w) hs (hr.extend hcap (hq _ hs)) hend
  | step hi hs hr _ ih => exact .step (by omega) hs hr ih

/-- Every segment of a chain that starts at the base offset is scanned. -/
theorem Chain.scans_segment (h : Chain F seg cap base w wpos i p as) (hp : p = base) {j : ℕ}
    (hj : i ≤ j) (hw : j ≤ w) (hs : seg j = some d) :
    ∃ bs, F.Scans d base bs (if j = w then wpos else cap) := by
  induction h with
  | last hs' hr =>
    obtain rfl : j = w := by omega
    obtain rfl : _ = d := Option.some.inj (hs'.symm.trans hs)
    subst hp
    exact ⟨_, by simpa using hr⟩
  | @step k p d' as bs hk hs' hr _ ih =>
    rcases Nat.eq_or_lt_of_le hj with rfl | hlt
    · obtain rfl : d' = d := Option.some.inj (hs'.symm.trans hs)
      subst hp
      exact ⟨as, by simpa [Nat.ne_of_lt hk] using hr⟩
    · exact ih rfl hlt

/-- Segment counts that are right for every scanned segment add up to the
number of records of the chain. -/
theorem Chain.sum_counts {f : ℕ → ℤ} (h : Chain F seg cap base w wpos i p as) (hp : p = base)
    (hlast : ∀ d bs, seg w = some d → F.Scans d base bs wpos → f w = bs.length)
    (hfull : ∀ j d bs, i ≤ j → j < w → seg j = some d → F.Scans d base bs cap → f j = bs.length) :
    ((List.range' i (w+1-i)).map f).sum = as.length := by
  induction h with
  | last hs hr =>
    subst hp
    have hone : w+1-w = 1 := by omega
    simp [hone, hlast _ _ hs hr]
  | @step j p d as bs hj hs hr _ ih =>
    subst hp
    have hlen : w+1-j = (w+1-(j+1))+1 := by omega
    have ih' := ih rfl fun k d bs hk hkw => hfull k d bs (by omega) hkw
    rw [hlen, List.range'_succ, List.map_cons, List.sum_cons, hfull j _ _ le_rfl hj hs hr, ih']
    simp

end Ucmq.FramedLog
