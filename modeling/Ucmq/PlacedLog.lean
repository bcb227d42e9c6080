import Ucmq.FramedLog

/-!
# Chains of framed records with their places

The records of a chain together with the segment and the offset at which each
one is stored. A chain can be cut at any of its records: the records before it
form a chain that ends at its place, those after it one that starts behind it.
-/

namespace Ucmq.PlacedLog

open ByteRegion FramedLog

variable {α : Type*}

/-- Records from cursor (i, p) to cursor (w, wpos), each with its segment and
offset. Segments before the last are quiet up to their capacity behind their
records, and later segments start at their base offset. -/
inductive Placed (F : Framing α) (seg : ℕ → Option Region) (cap base w wpos : ℕ) :
    ℕ → ℕ → List ((ℕ × ℕ) × α) → Prop
  | last {p : ℕ} {d : Region} (hs : seg w = some d) (hp : p ≤ wpos) (hq : Quiet F.mark d p wpos) :
      Placed F seg cap base w wpos w p []
  | next {i p : ℕ} {d : Region} {l : List ((ℕ × ℕ) × α)} (hi : i < w) (hs : seg i = some d)
      (hp : p ≤ cap) (hq : Quiet F.mark d p cap) (h : Placed F seg cap base w wpos (i+1) base l) :
      Placed F seg cap base w wpos i p l
  | frame {i p q : ℕ} {d : Region} {a : α} {l : List ((ℕ × ℕ) × α)} (hs : seg i = some d)
      (hp : p ≤ q) (hq : Quiet F.mark d p q) (hh : Holds d q (F.enc a))
      (h : Placed F seg cap base w wpos i (q+(F.enc a).length) l) :
      Placed F seg cap base w wpos i p (((i, q), a) :: l)

variable {F : Framing α} {seg t : ℕ → Option Region} {cap base w wpos i p k q : ℕ} {d : Region}
variable {a : α} {as : List α} {l pre post : List ((ℕ × ℕ) × α)}

/-- Records are placed in files up to the last one. -/
theorem Placed.index_le (h : Placed F seg cap base w wpos i p l) : i ≤ w := by
  induction h with
  | last => exact le_rfl
  | next hi => exact hi.le
  | frame _ _ _ _ _ ih => exact ih

/-- They are placed within a file. -/
theorem Placed.pos_le (h : Placed F seg cap base w wpos i p l) :
    p ≤ if i = w then wpos else cap := by
  induction h with
  | last _ hp => rwa [if_pos rfl]
  | next hi _ hp => rwa [if_neg hi.ne]
  | frame _ hp _ _ _ ih => omega

/-- The file exists. -/
theorem Placed.segment (h : Placed F seg cap base w wpos i p l) : ∃ d, seg i = some d := by
  cases h with
  | last hs => exact ⟨_, hs⟩
  | next _ hs => exact ⟨_, hs⟩
  | frame hs => exact ⟨_, hs⟩

/-- The records between two offsets of a segment. -/
theorem Placed.of_scans {e : ℕ} (hs : seg i = some d) (h : F.Scans d p as e)
    (hend : ∀ p', p' ≤ e → Quiet F.mark d p' e → Placed F seg cap base w wpos i p' l) :
    ∃ l', Placed F seg cap base w wpos i p (l' ++ l) ∧ l'.map Prod.snd = as := by
  induction as generalizing p with
  | nil => exact ⟨[], hend p h.1 h.2, rfl⟩
  | cons a as ih =>
    obtain ⟨q, hp, hq, hh, hr⟩ := h
    obtain ⟨l', hl, hm⟩ := ih hr
    exact ⟨((i, q), a) :: l', .frame hs hp hq hh hl, by rw [List.map_cons, hm]⟩

/-- Every record of a chain has a place. -/
theorem exists_placed (h : Chain F seg cap base w wpos i p as) :
    ∃ l, Placed F seg cap base w wpos i p l ∧ l.map Prod.snd = as := by
  induction h with
  | last hs hr =>
    obtain ⟨l, hl, hm⟩ := Placed.of_scans hs hr fun p' hp hq => .last hs hp hq
    exact ⟨l ++ [], hl, by simpa using hm⟩
  | step hi hs hr _ ih =>
    obtain ⟨l₂, hl₂, rfl⟩ := ih
    obtain ⟨l₁, hl₁, rfl⟩ := Placed.of_scans hs hr fun p' hp hq => .next hi hs hp hq hl₂
    exact ⟨l₁ ++ l₂, hl₁, by rw [List.map_append]⟩

/-- No record is placed before the cursor. -/
theorem Placed.place_ge (h : Placed F seg cap base w wpos i p l) (hm : ((k, q), a) ∈ l) :
    i ≤ k ∧ (k = i → p ≤ q) := by
  induction h with
  | last => exact absurd hm List.not_mem_nil
  | next _ _ _ _ _ ih =>
    have := ih hm
    exact ⟨by omega, fun _ => by omega⟩
  | frame _ hp _ _ _ ih =>
    rcases List.mem_cons.mp hm with heq | hm
    · cases heq
      exact ⟨le_rfl, fun _ => hp⟩
    · obtain ⟨hi, hq⟩ := ih hm
      exact ⟨hi, fun he => by have := hq he; omega⟩

/-- Cutting a chain at one of its records. -/
theorem Placed.cut (h : Placed F seg cap base w wpos i p (pre ++ ((k, q), a) :: post)) :
    Placed F seg cap base k q i p pre ∧ (∃ d, seg k = some d ∧ Holds d q (F.enc a)) ∧
      Placed F seg cap base w wpos k (q+(F.enc a).length) post := by
  generalize hl : pre ++ ((k, q), a) :: post = l at h
  induction h generalizing pre with
  | last => exact absurd hl (by simp)
  | @next i _ _ _ hi hs hp hq hnext ih =>
    obtain ⟨hpre, hrest⟩ := ih hl
    have hlt : i < k := by
      have := hpre.index_le
      omega
    exact ⟨.next hlt hs hp hq hpre, hrest⟩
  | frame hs hp hq hh hnext ih =>
    cases pre with
    | nil =>
      cases hl
      exact ⟨.last hs hp hq, ⟨_, hs, hh⟩, hnext⟩
    | cons x pre =>
      obtain ⟨rfl, hl'⟩ := List.cons.inj hl
      obtain ⟨hpre, hrest⟩ := ih hl'
      exact ⟨.frame hs hp hq hh hpre, hrest⟩

/-- The places depend only on the bytes between the two cursors. -/
theorem Placed.congr (h : Placed F seg cap base w wpos i p l)
    (hd : ∀ j d, i ≤ j → j ≤ w → seg j = some d →
      ∃ d', t j = some d' ∧ ∀ x, (j = i → p ≤ x) → (j = w → x < wpos) → d x = d' x) :
    Placed F t cap base w wpos i p l := by
  induction h with
  | last hs hp hq =>
    obtain ⟨d', hd', he⟩ := hd w _ le_rfl le_rfl hs
    exact .last hd' hp (hq.congr fun x hx hlt => he x (fun _ => hx) fun _ => hlt)
  | next hi hs hp hq _ ih =>
    obtain ⟨d', hd', he⟩ := hd _ _ le_rfl hi.le hs
    refine .next hi hd' hp (hq.congr fun x hx _ => he x (fun _ => hx) fun hj => absurd hj hi.ne)
      (ih ?_)
    intro j d hj hw hsj
    obtain ⟨d', hd', he⟩ := hd j d (by omega) hw hsj
    exact ⟨d', hd', fun x _ hx => he x (fun hji => by omega) hx⟩
  | @frame i p q d a l hs hp hq hh hnext ih =>
    have hle := hnext.index_le
    have hpos := hnext.pos_le
    obtain ⟨d', hd', he⟩ := hd i d le_rfl hle hs
    have hlim : ∀ x, x < q+(F.enc a).length → i = w → x < wpos := fun x hx hiw => by
      rw [if_pos hiw] at hpos
      omega
    refine .frame hd' hp (hq.congr fun x hx hlt => he x (fun _ => hx) (hlim x (by omega)))
      (hh.congr fun x hx hlt => he x (fun _ => by omega) (hlim x hlt)) (ih ?_)
    intro j d hj hw hsj
    obtain ⟨d', hd', he⟩ := hd j d hj hw hsj
    exact ⟨d', hd', fun x hx => he x fun hji => by have := hx hji; omega⟩

end Ucmq.PlacedLog
