import Ucmq.StoreInvariant
import Mathlib.Data.List.Induction

/-!
# Reading a position log back

A log that ends with a complete record restores exactly that record, whatever
stands before it. After interrupted writes a log is a sequence of complete
records and leading parts of records. Its last complete record is then restored
when nothing follows it, or when less than a line follows and a complete record
stands right before it. In every other arrangement there are contents for which
other values are restored: the walk back counts characters from the end, and a
line is taken from its first character even when it starts with a fragment.
-/

namespace Ucmq.PositionLog

open DecimalText StoreConfig StoreState StoreRtag StoreInvariant

/-- A record that meets the bounds of its columns and of the check. -/
structure Record (conf : UcmqConf) where
  /-- Fields of the record. -/
  item : RtagItem
  typed : item.Typed
  check : checkRtagItem conf item = true

/-- A complete record, or the leading characters of one whose write stopped. -/
inductive Piece (conf : UcmqConf) where
  | record (x : Record conf)
  | torn (x : Record conf) (k : ℕ) (hk : 1 ≤ k) (hle : k ≤ 59)

variable {conf : UcmqConf}

/-- Characters of a piece. -/
def Piece.text : Piece conf → List Char
  | .record x => rtagText x.item
  | .torn x k _ _ => (rtagText x.item).take k

/-- Length of a fragment, absent for a complete record. -/
def Piece.shape : Piece conf → Option ℕ
  | .record _ => none
  | .torn _ k _ _ => some k

/-- Text of a log. -/
def logText (pieces : List (Piece conf)) : List Char := pieces.flatMap Piece.text

/-- An empty log. -/
@[simp] theorem logText_nil : logText ([] : List (Piece conf)) = [] := rfl

/-- Two logs one behind the other. -/
@[simp] theorem logText_append (a b : List (Piece conf)) :
    logText (a ++ b) = logText a ++ logText b := by
  simp [logText]

/-- A log with one piece more in front. -/
@[simp] theorem logText_cons (p : Piece conf) (ps : List (Piece conf)) :
    logText (p :: ps) = p.text ++ logText ps := by
  simp [logText]

/-- Number of characters of a piece of the given shape. -/
def shapeSize : Option ℕ → ℕ
  | none => 61
  | some k => k

/-- Number of characters of a log of the given shape. -/
def layoutSize (layout : List (Option ℕ)) : ℕ := (layout.map shapeSize).sum

/-- Length of a piece. -/
theorem length_text (p : Piece conf) : p.text.length = shapeSize p.shape := by
  cases p with
  | record x => exact length_rtagText x.typed
  | torn x k hk hle =>
    have hlen := length_rtagText x.typed
    rw [Piece.text, Piece.shape, shapeSize, List.length_take, hlen]
    omega

/-- Length of a log. -/
theorem length_logText (pieces : List (Piece conf)) :
    (logText pieces).length = layoutSize (pieces.map Piece.shape) := by
  induction pieces with
  | nil => rfl
  | cons p ps ih =>
    rw [logText_cons, List.length_append, ih, length_text, List.map_cons, layoutSize, layoutSize,
      List.map_cons, List.sum_cons]

/-- The digits of a record. -/
def digits (item : RtagItem) : List Char := (rtagText item).dropLast

/-- A record is its digits and a newline. -/
theorem rtagText_eq (item : RtagItem) : rtagText item = digits item ++ ['\n'] := by
  conv_lhs => rw [rtagText]
  rw [digits, rtagText, List.dropLast_concat]

/-- A record has sixty digits. -/
theorem length_digits {item : RtagItem} (h : item.Typed) : (digits item).length = 60 := by
  rw [digits, List.length_dropLast, length_rtagText h]

/-- They are digits. -/
theorem isDigit_digits {item : RtagItem} {c : Char} (hc : c ∈ digits item) : c.isDigit := by
  rw [digits, rtagText, List.dropLast_concat] at hc
  simp only [List.mem_append] at hc
  rcases hc with ((((h0 | h1) | h2) | h3) | h4) | h5
  all_goals exact isDigit_padDec ‹_›

/-- Text of digits and line ends. -/
def Plain (s : List Char) : Prop := ∀ c ∈ s, c.isDigit = true ∨ c = '\n'

/-- Plain text behind plain text is plain. -/
theorem Plain.append {s t : List Char} (hs : Plain s) (ht : Plain t) : Plain (s ++ t) := by
  intro c hc
  rcases List.mem_append.mp hc with h | h
  · exact hs c h
  · exact ht c h

/-- Plain text without its beginning is plain. -/
theorem Plain.drop {s : List Char} (hs : Plain s) (k : ℕ) : Plain (s.drop k) :=
  fun c hc => hs c (List.mem_of_mem_drop hc)

/-- The beginning of plain text is plain. -/
theorem Plain.take {s : List Char} (hs : Plain s) (k : ℕ) : Plain (s.take k) :=
  fun c hc => hs c (List.mem_of_mem_take hc)

/-- A record is plain. -/
theorem plain_rtagText (item : RtagItem) : Plain (rtagText item) := by
  rw [rtagText_eq]
  intro c hc
  rcases List.mem_append.mp hc with h | h
  · exact Or.inl (isDigit_digits h)
  · exact Or.inr (List.mem_singleton.mp h)

/-- A piece is plain. -/
theorem plain_text (p : Piece conf) : Plain p.text := by
  cases p with
  | record x => exact plain_rtagText x.item
  | torn x k _ _ => exact (plain_rtagText x.item).take k

/-- A log is plain. -/
theorem plain_logText (pieces : List (Piece conf)) : Plain (logText pieces) := by
  intro c hc
  obtain ⟨p, -, hp⟩ := List.mem_flatMap.mp hc
  exact plain_text p c hp

/-- A fragment has no line end. -/
theorem isDigit_torn {x : Record conf} {k : ℕ} {hk : 1 ≤ k} {hle : k ≤ 59} {c : Char}
    (hc : c ∈ (Piece.torn x k hk hle).text) : c.isDigit = true := by
  have hlen := length_digits x.typed
  rw [Piece.text, rtagText_eq, List.take_append_of_le_length (by omega)] at hc
  exact isDigit_digits (List.mem_of_mem_take hc)

/-- Digits hold no newline. -/
theorem newline_notMem {s : List Char} (h : ∀ c ∈ s, c.isDigit = true) : '\n' ∉ s := by
  intro hm
  have := h _ hm
  simp at this

/-- Plain text is parsed up to its end. -/
theorem parseRtagItem_plain {s : List Char} (h : Plain s) (old : RtagItem) :
    parseRtagItem conf old s = parseRtagTokens conf old (strtok '\n' [] s) := by
  have hnul : s.takeWhile (· ≠ '\x00') = s := by
    rw [List.takeWhile_eq_self_iff]
    intro c hc
    simp only [decide_eq_true_eq]
    rintro rfl
    rcases h _ hc with hd | hn
    · simp at hd
    · exact absurd hn (by decide)
  rw [parseRtagItem, hnul]

/-- Lines shorter than a record are skipped. -/
theorem parseRtagTokens_skip (u v run : List Char) (old : RtagItem)
    (hlen : run.length+u.length < 60) :
    parseRtagTokens conf old (strtok '\n' run (u ++ '\n' :: v)) =
      parseRtagTokens conf old (strtok '\n' [] v) := by
  induction u generalizing run with
  | nil =>
    rw [List.nil_append, strtok, if_pos rfl]
    split
    · rfl
    · rw [parseRtagTokens, if_neg (by omega)]
  | cons c u ih =>
    rw [List.length_cons] at hlen
    rw [List.cons_append, strtok]
    split
    · split
      · exact ih [] (by simp only [List.length_nil]; omega)
      · rw [parseRtagTokens, if_neg (by omega)]
        exact ih [] (by simp only [List.length_nil]; omega)
    · exact ih (run ++ [c]) (by simp only [List.length_append, List.length_singleton]; omega)

/-- Text shorter than a record holds none. -/
theorem parseRtagTokens_short (u run : List Char) (old : RtagItem)
    (hlen : run.length+u.length < 60) :
    parseRtagTokens conf old (strtok '\n' run u) = (false, old) := by
  induction u generalizing run with
  | nil =>
    rw [strtok]
    split
    · rfl
    · rw [parseRtagTokens, if_neg (by omega)]
      rfl
  | cons c u ih =>
    rw [List.length_cons] at hlen
    rw [strtok]
    split
    · split
      · exact ih [] (by simp only [List.length_nil]; omega)
      · rw [parseRtagTokens, if_neg (by omega)]
        exact ih [] (by simp only [List.length_nil]; omega)
    · exact ih (run ++ [c]) (by simp only [List.length_append, List.length_singleton]; omega)

/-- A line whose columns hold a checked record restores it. -/
theorem parseRtagTokens_line {line v : List Char} {old item : RtagItem} (hn : '\n' ∉ line)
    (hlen : 60 ≤ line.length) (hp : parseRtagColumns old line = (true, item))
    (hc : checkRtagItem conf item = true) (hv : v = [] ∨ ∃ w, v = '\n' :: w) :
    parseRtagTokens conf old (strtok '\n' [] (line ++ v)) = (true, item) := by
  have hne : line ≠ [] := by
    rintro rfl
    simp at hlen
  have htok : ∃ rest, strtok '\n' [] (line ++ v) = line :: rest := by
    rw [strtok_run hn, List.nil_append]
    rcases hv with rfl | ⟨w, rfl⟩
    · exact ⟨[], by rw [strtok, if_neg hne]⟩
    · exact ⟨_, by rw [strtok, if_pos rfl, if_neg hne]⟩
  obtain ⟨rest, htok⟩ := htok
  rw [htok, parseRtagTokens, if_pos hlen, hp]
  simp only [hc, if_true]

section walk

variable {t line : List Char} {fuel i : ℕ} {old item : RtagItem}

/-- The seek offset of a short log is not negative. -/
theorem seek_nonneg (ht : t.length < 2^31) (hi : i*61 ≤ t.length) :
    ¬(if t.length < i*61 then -1 else toI32 (t.length-i*61 : ℕ)) < 0 := by
  rw [if_neg (by omega), toI32_of_bounds (by omega) (by omega)]
  omega

/-- The walk stops at a buffer that parses. -/
theorem rtagReadLoop_hit (ht : t.length < 2^31) (hpos : 1 ≤ i) (hi : i*61 ≤ t.length)
    (hline : (t.drop (t.length-i*61)).take 122 = line)
    (hp : parseRtagItem conf old line = (true, item)) :
    rtagReadLoop conf t (fuel+1) i old = if 1 < i then { item with wpos := maxDbFileSize conf }
      else item := by
  have hlen : 61 ≤ line.length := by
    rw [← hline, List.length_take, List.length_drop]
    omega
  rw [rtagReadLoop]
  simp only
  rw [if_neg (seek_nonneg ht hi), hline, if_pos hlen, hp]

/-- The walk goes on after a buffer that does not parse. -/
theorem rtagReadLoop_miss (ht : t.length < 2^31) (hpos : 1 ≤ i) (hi : i*61 ≤ t.length)
    (hline : (t.drop (t.length-i*61)).take 122 = line)
    (hp : parseRtagItem conf old line = (false, item)) :
    rtagReadLoop conf t (fuel+1) i old = rtagReadLoop conf t fuel (i+1) item := by
  have hlen : 61 ≤ line.length := by
    rw [← hline, List.length_take, List.length_drop]
    omega
  rw [rtagReadLoop]
  simp only
  rw [if_neg (seek_nonneg ht hi), hline, if_pos hlen, hp]

/-- The walk falls back when it leaves the log. -/
theorem rtagReadLoop_out (hi : t.length < i*61) :
    rtagReadLoop conf t fuel i old = rtagFallback conf := by
  cases fuel with
  | zero => rfl
  | succ fuel =>
    rw [rtagReadLoop]
    simp only
    rw [if_pos hi, if_pos (by decide)]

end walk

/-- The fields restored are those of the loop over the lines. -/
theorem rtagItem_readItem (conf : UcmqConf) (t : List Char) (q : MqQueue) :
    rtagItem (mqSmRtagReadItem conf t q) = rtagReadLoop conf t (t.length/61+2) 1 (rtagItem q) := rfl

/-- The persisted fields are those of a record, but for the write position of a
log that goes on after it. -/
structure RestoresLast (conf : UcmqConf) (last : RtagItem) (torn : Prop) (item : RtagItem) :
    Prop where
  rcount : item.rcount = last.rcount
  rpos : item.rpos = last.rpos
  wpos : item.wpos = last.wpos ∨ torn ∧ item.wpos = maxDbFileSize conf
  maxqueue : item.maxqueue = last.maxqueue
  delay : item.delay = last.delay
  wlock : item.wlock = last.wlock

/-- Reading a log restores its last complete record. -/
def Recovers (conf : UcmqConf) (pieces : List (Piece conf)) : Prop :=
  ∀ pre last post, pieces = pre ++ .record last :: post → (∀ p ∈ post, p.shape ≠ none) →
    ∀ q, RestoresLast conf last.item (post ≠ [])
      (rtagItem (mqSmRtagReadItem conf (logText pieces) q))

/-- Nothing follows the last complete record, or less than a line follows it and
a complete record stands right before it. -/
def LayoutOk (layout : List (Option ℕ)) : Prop :=
  ∀ pre post, layout = pre ++ none :: post → none ∉ post →
    post = [] ∨ layoutSize post ≤ 59 ∧ ∃ pre', pre = pre' ++ [none]

/-- Fragments are digits. -/
theorem isDigit_logText {pieces : List (Piece conf)} (h : ∀ p ∈ pieces, p.shape ≠ none) {c : Char}
    (hc : c ∈ logText pieces) : c.isDigit = true := by
  obtain ⟨p, hp, hcp⟩ := List.mem_flatMap.mp hc
  cases p with
  | record x => exact absurd rfl (h _ hp)
  | torn x k hk hle => exact isDigit_torn hcp

/-- The last characters of a text that ends with a known part. -/
theorem drop_suffix {a b : List Char} {k : ℕ} (hk : k = b.length) :
    (a ++ b).drop ((a ++ b).length-k) = b := by
  rw [List.length_append, hk, Nat.add_sub_cancel, List.drop_left]

/-- The last line's worth of a text that goes on after a record. -/
theorem window_one {t x g : List Char} (hx : x.length = 61) (hg : g.length ≤ 61) :
    ((t ++ x ++ g).drop ((t ++ x ++ g).length-1*61)).take 122 = x.drop g.length ++ g := by
  have hsplit : t ++ x ++ g = t ++ x.take g.length ++ (x.drop g.length ++ g) := by
    rw [List.append_assoc t (x.take _), ← List.append_assoc (x.take _), List.take_append_drop,
      ← List.append_assoc]
  have hk : (x.drop g.length ++ g).length = 61 := by
    rw [List.length_append, List.length_drop]
    omega
  rw [hsplit, drop_suffix (by omega), List.take_of_length_le (by omega)]

/-- The last two lines' worth of such a text. -/
theorem window_two {t x g : List Char} (hx : x.length = 61) (hg : g.length ≤ 61)
    (ht : 61 ≤ t.length+g.length) :
    ((t ++ x ++ g).drop ((t ++ x ++ g).length-2*61)).take 122 =
      t.drop (t.length-(61-g.length)) ++ x ++ g := by
  have hsplit : t ++ x ++ g =
      t.take (t.length-(61-g.length)) ++ (t.drop (t.length-(61-g.length)) ++ x ++ g) := by
    rw [← List.append_assoc, ← List.append_assoc, List.take_append_drop]
  have hk : (t.drop (t.length-(61-g.length)) ++ x ++ g).length = 122 := by
    rw [List.length_append, List.length_append, List.length_drop]
    omega
  conv_lhs => rw [hsplit]
  rw [drop_suffix (by omega), List.take_of_length_le (by omega)]

/-- A record followed by less than a line does not parse from the last line on. -/
theorem parse_cut {x : Record conf} {g : List Char} (hg : ∀ c ∈ g, c.isDigit = true)
    (hpos : 1 ≤ g.length) (hle : g.length ≤ 59) (old : RtagItem) :
    parseRtagItem conf old ((rtagText x.item).drop g.length ++ g) = (false, old) := by
  have hlen := length_digits x.typed
  have hplain : Plain ((rtagText x.item).drop g.length ++ g) :=
    ((plain_rtagText x.item).drop _).append fun c hc => Or.inl (hg c hc)
  have hsplit : (rtagText x.item).drop g.length ++ g = (digits x.item).drop g.length ++
      '\n' :: g := by
    rw [rtagText_eq, List.drop_append_of_le_length (by omega), List.append_assoc]
    rfl
  rw [parseRtagItem_plain hplain, hsplit,
    parseRtagTokens_skip _ _ _ _ (by rw [List.length_nil, List.length_drop]; omega),
    parseRtagTokens_short _ _ _ (by rw [List.length_nil]; omega)]

/-- A record after a complete one and before less than a line parses. -/
theorem parse_kept {p x : Record conf} {g : List Char} (hg : ∀ c ∈ g, c.isDigit = true)
    (hpos : 1 ≤ g.length) (hle : g.length ≤ 59) (old : RtagItem) :
    parseRtagItem conf old ((rtagText p.item).drop g.length ++ rtagText x.item ++ g) =
      (true, x.item) := by
  have hlen := length_digits p.typed
  have hlenx := length_digits x.typed
  have hplain : Plain ((rtagText p.item).drop g.length ++ rtagText x.item ++ g) :=
    (((plain_rtagText p.item).drop _).append (plain_rtagText x.item)).append fun c hc =>
      Or.inl (hg c hc)
  have hline : parseRtagTokens conf old (strtok '\n' [] (rtagText x.item ++ g)) =
      (true, x.item) := by
    rw [rtagText_eq, List.append_assoc]
    exact parseRtagTokens_line (newline_notMem fun _ => isDigit_digits) (by omega)
      (parseRtagColumns_text x.typed old) x.check (Or.inr ⟨g, rfl⟩)
  have hsplit : (rtagText p.item).drop g.length ++ rtagText x.item ++ g =
      (digits p.item).drop g.length ++ '\n' :: (rtagText x.item ++ g) := by
    rw [rtagText_eq p.item, List.drop_append_of_le_length (by omega)]
    simp
  rw [parseRtagItem_plain hplain, hsplit,
    parseRtagTokens_skip _ _ _ _ (by rw [List.length_nil, List.length_drop]; omega)]
  exact hline

/-- The walk finds a record after a complete one and before less than a line. -/
theorem rtagReadLoop_kept {p x : Record conf} {t g : List Char} (hg : ∀ c ∈ g, c.isDigit = true)
    (hpos : 1 ≤ g.length) (hle : g.length ≤ 59)
    (hsize : (t ++ rtagText p.item ++ rtagText x.item ++ g).length < 2^31) (fuel : ℕ)
    (old : RtagItem) :
    rtagReadLoop conf (t ++ rtagText p.item ++ rtagText x.item ++ g) (fuel+2) 1 old =
      { x.item with wpos := maxDbFileSize conf } := by
  have hlenp := length_rtagText p.typed
  have hlenx := length_rtagText x.typed
  have hcut : (t ++ rtagText p.item).drop ((t ++ rtagText p.item).length-(61-g.length)) =
      (rtagText p.item).drop g.length := by
    rw [List.length_append, hlenp, show t.length+61-(61-g.length) = t.length+g.length by omega,
      List.drop_append]
    simp
  have hsecond := @window_two (t ++ rtagText p.item) (rtagText x.item) g hlenx (by omega)
    (by rw [List.length_append]; omega)
  rw [hcut] at hsecond
  have htotal :
      (t ++ rtagText p.item ++ rtagText x.item ++ g).length = t.length+61+61+g.length := by
    simp only [List.length_append]
    omega
  rw [rtagReadLoop_miss hsize le_rfl (by omega) (window_one hlenx (by omega))
    (parse_cut hg hpos hle old),
    rtagReadLoop_hit hsize (by omega) (by omega) hsecond (parse_kept hg hpos hle old),
    if_pos (by omega)]

/-- A log of one piece or more is not empty. -/
theorem one_le_length_logText {pieces : List (Piece conf)} (h : ∀ p ∈ pieces, p.shape ≠ none)
    (hne : pieces ≠ []) : 1 ≤ (logText pieces).length := by
  cases pieces with
  | nil => exact absurd rfl hne
  | cons p ps =>
    cases p with
    | record x => exact absurd rfl (h _ List.mem_cons_self)
    | torn x k hk hle =>
      rw [logText_cons, List.length_append, length_text]
      exact hk.trans (Nat.le_add_right _ _)

/-- A log in one of the two arrangements restores its last complete record. -/
theorem recovers_of_layoutOk {pieces : List (Piece conf)} (hok : LayoutOk (pieces.map Piece.shape))
    (hsize : (logText pieces).length < 2^31) : Recovers conf pieces := by
  intro pre last post hpieces htorn q
  have hshape : pieces.map Piece.shape = pre.map Piece.shape ++ none :: post.map Piece.shape := by
    rw [hpieces, List.map_append]
    rfl
  have hnone : none ∉ post.map Piece.shape := by
    intro hm
    obtain ⟨p, hp, he⟩ := List.mem_map.mp hm
    exact htorn p hp he
  rw [rtagItem_readItem]
  have htext : logText pieces = logText pre ++ rtagText last.item ++ logText post := by
    rw [hpieces, logText_append, logText_cons, ← List.append_assoc]
    rfl
  rw [htext] at hsize ⊢
  by_cases hnil : post = []
  · subst hnil
    rw [logText_nil, List.append_nil] at hsize ⊢
    rw [rtagReadLoop_last last.typed last.check _ hsize]
    exact ⟨rfl, rfl, Or.inl rfl, rfl, rfl, rfl⟩
  · obtain ⟨hle, pre', hpre⟩ := (hok _ _ hshape hnone).resolve_left (mt List.map_eq_nil_iff.mp hnil)
    obtain ⟨a, b, rfl, -, hb⟩ := List.map_eq_append_iff.mp hpre
    obtain ⟨p, rfl, hp⟩ := List.map_eq_singleton_iff.mp hb
    cases p with
    | torn x k hk hk' => cases hp
    | record p =>
      have hlast : logText [Piece.record p] = rtagText p.item := List.append_nil _
      rw [logText_append, hlast] at hsize ⊢
      rw [rtagReadLoop_kept (fun _ => isDigit_logText htorn) (one_le_length_logText htorn hnil)
        (by rw [length_logText]; exact hle) hsize]
      exact ⟨rfl, rfl, Or.inr ⟨hnil, rfl⟩, rfl, rfl, rfl⟩

/-- A record of zeros with a write lock of one second. -/
def lockedRecord (conf : UcmqConf) : Record conf where
  item := ⟨0, 0, 0, 0, 0, 1⟩
  typed := ⟨by decide, by decide, by decide, by decide, by decide, by decide, by decide⟩
  check := by simp [checkRtagItem]

/-- A log of the given shape with the same record in all its pieces. -/
def lockedPiece (conf : UcmqConf) : Option ℕ → Piece conf
  | none => .record (lockedRecord conf)
  | some k => .torn (lockedRecord conf) (max 1 (min k 59)) (le_max_left _ _) (by omega)

/-- The record of the failing log: zeros and a lock. -/
theorem digits_locked (conf : UcmqConf) :
    digits (lockedRecord conf).item = List.replicate 59 '0' ++ ['1'] := by
  show digits ⟨0, 0, 0, 0, 0, 1⟩ = _
  decide

/-- A fragment of it is zeros. -/
theorem text_locked_torn {k : ℕ} (hk : 1 ≤ k) (hle : k ≤ 59) :
    (lockedPiece conf (some k)).text = List.replicate k '0' := by
  have hmax : max 1 (min k 59) = k := by omega
  rw [lockedPiece, Piece.text, rtagText_eq, digits_locked, hmax, List.append_assoc,
    List.take_append_of_le_length (by rw [List.length_replicate]; exact hle), List.take_replicate,
    min_eq_left hle]

/-- Pieces of it have the shapes they are made for. -/
theorem shape_lockedPiece {layout : List (Option ℕ)} (hv : ∀ k, some k ∈ layout → 1 ≤ k ∧ k ≤ 59) :
    (layout.map (lockedPiece conf)).map Piece.shape = layout := by
  rw [List.map_map]
  refine (List.map_congr_left fun x hx => ?_).trans (List.map_id _)
  cases x with
  | none => rfl
  | some k =>
    obtain ⟨h1, h2⟩ := hv k hx
    show some (max 1 (min k 59)) = some k
    congr 1
    omega

/-- Text of these fragments. -/
theorem logText_locked_torn {layout : List (Option ℕ)} (hv : ∀ k, some k ∈ layout → 1 ≤ k ∧ k ≤ 59)
    (hn : none ∉ layout) :
    logText (layout.map (lockedPiece conf)) = List.replicate (layoutSize layout) '0' := by
  induction layout with
  | nil => rfl
  | cons x layout ih =>
    cases x with
    | none => exact absurd List.mem_cons_self hn
    | some k =>
      obtain ⟨h1, h2⟩ := hv k List.mem_cons_self
      rw [List.map_cons, logText_cons, text_locked_torn h1 h2,
        ih (fun j hj => hv j (List.mem_cons_of_mem _ hj))
          (fun hm => hn (List.mem_cons_of_mem _ hm)),
        List.replicate_append_replicate]
      rfl

/-- Sixty zeros and more parse as a record without a write lock. -/
theorem parseRtagColumns_zeros (line : List Char) (old : RtagItem) :
    parseRtagColumns old (List.replicate 60 '0' ++ line) = (true, ⟨0, 0, 0, 0, 0, 0⟩) := by
  have hcol : ∀ k, k ≤ 5 →
      rtagColumn (List.replicate 60 '0' ++ line) k = List.replicate 10 '0' := by
    intro k hk
    rw [rtagColumn, List.drop_append_of_le_length (by rw [List.length_replicate]; omega),
      List.drop_replicate, List.take_append_of_le_length (by rw [List.length_replicate]; omega),
      List.take_replicate]
    congr 1
    omega
  have hnum : strToNum (List.replicate 10 '0') = some 0 := by decide
  simp only [parseRtagColumns, hcol 0 (by omega), hcol 1 (by omega), hcol 2 (by omega),
    hcol 3 (by omega), hcol 4 (by omega), hcol 5 (by omega), hnum]
  rfl

/-- Text whose last line is zeros. -/
def ZeroEnded (a : List Char) (j : ℕ) : Prop :=
  a = List.replicate j '0' ∨ ∃ u, a = u ++ '\n' :: List.replicate j '0'

/-- What is left of a text that ends in zeros ends in zeros. -/
theorem zeroEnded_drop {a : List Char} {j : ℕ} (h : ZeroEnded a j) (hj : 1 ≤ j) {n : ℕ}
    (hn : n < a.length) :
    ∃ j', 1 ≤ j' ∧ ZeroEnded (a.drop n) j' := by
  rcases h with rfl | ⟨u, rfl⟩
  · rw [List.length_replicate] at hn
    exact ⟨j-n, by omega, Or.inl List.drop_replicate⟩
  · rcases Nat.lt_or_ge u.length n with hlt | hge
    · refine ⟨j-(n-u.length-1), ?_, Or.inl ?_⟩
      · simp only [List.length_append, List.length_cons, List.length_replicate] at hn
        omega
      · rw [List.drop_append, List.drop_eq_nil_of_le (by omega), List.nil_append,
          show n-u.length = (n-u.length-1)+1 by omega, List.drop_succ_cons, List.drop_replicate]
        rfl
    · refine ⟨j, hj, Or.inr ⟨u.drop n, ?_⟩⟩
      rw [List.drop_append_of_le_length (by omega)]

/-- After the last line end of such a log there are only zeros, and some if it
ends with a fragment. -/
theorem zeroEnded_locked {layout : List (Option ℕ)} (hv : ∀ k, some k ∈ layout → 1 ≤ k ∧ k ≤ 59) :
    ∃ j, ZeroEnded (logText (layout.map (lockedPiece conf))) j ∧
      (layout = [] ∨ (∃ pre, layout = pre ++ [none]) ∨ 1 ≤ j) := by
  induction layout using List.reverseRecOn with
  | nil => exact ⟨0, Or.inl rfl, Or.inl rfl⟩
  | append_singleton layout x ih =>
    rw [List.map_append, List.map_singleton, logText_append, logText_cons, logText_nil,
      List.append_nil]
    cases x with
    | none =>
      refine ⟨0,
        Or.inr ⟨logText (layout.map (lockedPiece conf)) ++ digits (lockedRecord conf).item, ?_⟩,
        Or.inr (Or.inl ⟨layout, rfl⟩)⟩
      rw [lockedPiece, Piece.text, rtagText_eq, List.replicate_zero, List.append_assoc]
    | some k =>
      obtain ⟨j, hj, -⟩ := ih fun i hi => hv i (List.mem_append_left _ hi)
      obtain ⟨h1, h2⟩ := hv k (List.mem_append_right _ (List.mem_singleton_self _))
      rw [text_locked_torn h1 h2]
      refine ⟨j+k, ?_, Or.inr (Or.inr (by omega))⟩
      rcases hj with hj | ⟨u, hj⟩
      · exact Or.inl (by rw [hj, List.replicate_append_replicate])
      · exact Or.inr ⟨u,
          by rw [hj, List.append_assoc, List.cons_append, List.replicate_append_replicate]⟩

/-- Zeros before the record shift its columns, and the lock is lost. -/
theorem parse_shifted {a : List Char} {j c : ℕ} (ha : Plain a) (h : ZeroEnded a j) (hj : 1 ≤ j)
    (hlen : a.length ≤ 60) (old : RtagItem) :
    parseRtagItem conf old (a ++ rtagText (lockedRecord conf).item ++ List.replicate c '0') =
      (true, ⟨0, 0, 0, 0, 0, 0⟩) := by
  have hline : parseRtagTokens conf old (strtok '\n' [] (List.replicate j '0' ++
      rtagText (lockedRecord conf).item ++ List.replicate c '0')) = (true, ⟨0, 0, 0, 0, 0, 0⟩) := by
    have hsplit :
      List.replicate j '0' ++ rtagText (lockedRecord conf).item ++ List.replicate c '0' =
        (List.replicate 60 '0' ++ (List.replicate (j-1) '0' ++ ['1'])) ++ '\n' ::
          List.replicate c '0' := by
      rw [rtagText_eq, digits_locked, ← List.append_assoc, ← List.append_assoc, ← List.append_assoc,
        List.replicate_append_replicate, List.replicate_append_replicate, show 60+(j-1) = j+59 by
      omega]
      simp only [List.append_assoc, List.cons_append, List.nil_append]
    rw [hsplit]
    refine parseRtagTokens_line ?_ ?_ (parseRtagColumns_zeros _ old) (by simp [checkRtagItem])
      (Or.inr ⟨_, rfl⟩)
    · refine newline_notMem fun x hx => ?_
      simp only [List.mem_append, List.mem_replicate, List.mem_singleton] at hx
      rcases hx with ⟨-, rfl⟩ | ⟨-, rfl⟩ | rfl <;> rfl
    · rw [List.length_append, List.length_replicate]
      omega
  have hplain : Plain (a ++ rtagText (lockedRecord conf).item ++ List.replicate c '0') := by
    refine (ha.append (plain_rtagText _)).append fun x hx => ?_
    rw [(List.mem_replicate.mp hx).2]
    exact Or.inl rfl
  rw [parseRtagItem_plain hplain]
  rcases h with rfl | ⟨u, rfl⟩
  · exact hline
  · rw [List.length_append, List.length_cons] at hlen
    simp only [List.append_assoc, List.cons_append] at hline ⊢
    rw [parseRtagTokens_skip _ _ _ _ (by rw [List.length_nil]; omega)]
    exact hline

/-- Zeros are digits. -/
theorem isDigit_zeros {k : ℕ} {x : Char} (hx : x ∈ List.replicate k '0') : x.isDigit = true := by
  rw [(List.mem_replicate.mp hx).2]
  rfl

/-- Zeros are plain. -/
theorem plain_zeros (k : ℕ) : Plain (List.replicate k '0') := fun _ hx => Or.inl (isDigit_zeros hx)

/-- A line of sixty zeros or more is taken for a record. -/
theorem parseRtagTokens_zeros {k : ℕ} (hk : 60 ≤ k) (old : RtagItem) :
    parseRtagTokens conf old (strtok '\n' [] (List.replicate k '0')) =
      (true, ⟨0, 0, 0, 0, 0, 0⟩) := by
  have hsplit : List.replicate k '0' = List.replicate 60 '0' ++ List.replicate (k-60) '0' := by
    rw [List.replicate_append_replicate, Nat.add_sub_cancel' hk]
  have hline := @parseRtagTokens_line conf (List.replicate k '0') [] old ⟨0, 0, 0, 0, 0, 0⟩
    (newline_notMem fun _ => isDigit_zeros) (by rw [List.length_replicate]; exact hk)
    (by rw [hsplit]; exact parseRtagColumns_zeros _ old) (by simp [checkRtagItem]) (Or.inl rfl)
  rwa [List.append_nil] at hline

/-- Sixty zeros or more at the end of a log are taken for a record. -/
theorem rtagReadLoop_zeros {t : List Char} {c : ℕ} (hc : 60 ≤ c)
    (hsize : (t ++ '\n' :: List.replicate c '0').length < 2^31) (fuel : ℕ) (old : RtagItem) :
    rtagReadLoop conf (t ++ '\n' :: List.replicate c '0') (fuel+1) 1 old = ⟨0, 0, 0, 0, 0, 0⟩ := by
  have hlen : (t ++ '\n' :: List.replicate c '0').length = t.length+(c+1) := by
    rw [List.length_append, List.length_cons, List.length_replicate]
  rcases Nat.lt_or_ge 60 c with hlt | hge
  · have hsplit : t ++ '\n' :: List.replicate c '0' =
        t ++ '\n' :: List.replicate (c-61) '0' ++ List.replicate 61 '0' := by
      rw [List.append_assoc, List.cons_append, List.replicate_append_replicate,
        Nat.sub_add_cancel hlt]
    have hline : ((t ++ '\n' :: List.replicate c '0').drop
        ((t ++ '\n' :: List.replicate c '0').length-1*61)).take 122 = List.replicate 61 '0' := by
      rw [hsplit, drop_suffix (by rw [List.length_replicate]), List.take_of_length_le
        (by rw [List.length_replicate]; omega)]
    have hparse : parseRtagItem conf old (List.replicate 61 '0') = (true, ⟨0, 0, 0, 0, 0, 0⟩) := by
      rw [parseRtagItem_plain (plain_zeros 61)]
      exact parseRtagTokens_zeros (by omega) old
    rw [rtagReadLoop_hit hsize le_rfl (by omega) hline hparse, if_neg (by omega)]
  · obtain rfl : c = 60 := by omega
    have hline : ((t ++ '\n' :: List.replicate 60 '0').drop
        ((t ++ '\n' :: List.replicate 60 '0').length-1*61)).take 122 = '\n' ::
          List.replicate 60 '0' := by
      rw [drop_suffix (by rw [List.length_cons, List.length_replicate]), List.take_of_length_le
        (by rw [List.length_cons, List.length_replicate]; omega)]
    have hplain : Plain ('\n' :: List.replicate 60 '0') := by
      intro x hx
      rcases List.mem_cons.mp hx with rfl | hx
      · exact Or.inr rfl
      · exact Or.inl (isDigit_zeros hx)
    have hparse :
        parseRtagItem conf old ('\n' :: List.replicate 60 '0') = (true, ⟨0, 0, 0, 0, 0, 0⟩) := by
      rw [parseRtagItem_plain hplain, strtok, if_pos rfl, if_pos rfl]
      exact parseRtagTokens_zeros le_rfl old
    rw [rtagReadLoop_hit hsize le_rfl (by omega) hline hparse, if_neg (by omega)]

/-- A record after zeros is read from the first of them, and a record at the
start of the log is not reached. -/
theorem rtagReadLoop_shifted {t : List Char} {c j : ℕ} (hpos : 1 ≤ c) (hc : c ≤ 59)
    (hplain : Plain t) (ht : t = [] ∨ 1 ≤ j ∧ ZeroEnded t j)
    (hsize : (t ++ rtagText (lockedRecord conf).item ++ List.replicate c '0').length < 2^31)
    (fuel : ℕ) (old : RtagItem) :
    (rtagReadLoop conf (t ++ rtagText (lockedRecord conf).item ++ List.replicate c '0')
      (fuel+2) 1 old).wlock =
      0 := by
  have hlenx := length_rtagText (lockedRecord conf).typed
  have hlenz : (List.replicate c '0').length = c := List.length_replicate
  have hlen : (t ++ rtagText (lockedRecord conf).item ++ List.replicate c '0').length =
      t.length+61+c := by
    simp only [List.length_append]
    omega
  rw [rtagReadLoop_miss hsize le_rfl (by omega) (window_one hlenx (by omega))
    (parse_cut (fun _ => isDigit_zeros) (by omega) (by omega) old)]
  rcases Nat.lt_or_ge (t.length+61+c) 122 with hlt | hge
  · rw [rtagReadLoop_out (by omega)]
    rfl
  · obtain ⟨hj, hz⟩ := ht.resolve_left (by rintro rfl; rw [List.length_nil] at hge; omega)
    obtain ⟨j', hj', hz'⟩ := zeroEnded_drop hz hj (n := t.length-(61-c)) (by omega)
    have hcut : (t.drop (t.length-(61-c))).length = 61-c := by
      rw [List.length_drop]
      omega
    have hsecond :=
      @window_two t (rtagText (lockedRecord conf).item) (List.replicate c '0') hlenx (by omega)
      (by omega)
    rw [hlenz] at hsecond
    rw [rtagReadLoop_hit hsize (by omega) (by omega) hsecond
      (parse_shifted (hplain.drop _) hz' hj' (by omega) old), if_pos (by omega)]

/-- In any other arrangement the lock of these records is lost. -/
theorem not_recovers_locked {pre post : List (Option ℕ)}
    (hv : ∀ k, some k ∈ pre ++ none :: post → 1 ≤ k ∧ k ≤ 59) (hn : none ∉ post) (hpost : post ≠ [])
    (hbad : ¬(layoutSize post ≤ 59 ∧ ∃ pre', pre = pre' ++ [none]))
    (hsize : layoutSize (pre ++ none :: post) < 2^31) :
    ¬Recovers conf ((pre ++ none :: post).map (lockedPiece conf)) := by
  have hvpre : ∀ k, some k ∈ pre → 1 ≤ k ∧ k ≤ 59 := fun k hk => hv k (List.mem_append_left _ hk)
  have hvpost : ∀ k, some k ∈ post → 1 ≤ k ∧ k ≤ 59 := fun k hk =>
    hv k (List.mem_append_right _ (List.mem_cons_of_mem _ hk))
  have hpieces : (pre ++ none :: post).map (lockedPiece conf) =
      pre.map (lockedPiece conf) ++ .record (lockedRecord conf) :: post.map (lockedPiece conf) := by
    rw [List.map_append]
    rfl
  have htorn : ∀ p ∈ post.map (lockedPiece conf), p.shape ≠ none := by
    intro p hp
    obtain ⟨x, hx, rfl⟩ := List.mem_map.mp hp
    cases x with
    | none => exact absurd hx hn
    | some k =>
      intro hshape
      cases hshape
  have hlen : (logText ((pre ++ none :: post).map (lockedPiece conf))).length < 2^31 := by
    rw [length_logText, shape_lockedPiece hv]
    exact hsize
  have htext : logText ((pre ++ none :: post).map (lockedPiece conf)) =
      logText (pre.map (lockedPiece conf)) ++ rtagText (lockedRecord conf).item ++
        List.replicate (layoutSize post) '0' := by
    rw [hpieces, logText_append, logText_cons, logText_locked_torn hvpost hn, ← List.append_assoc]
    rfl
  have hpos : 1 ≤ layoutSize post := by
    have hone := one_le_length_logText htorn (mt List.map_eq_nil_iff.mp hpost)
    rwa [length_logText, shape_lockedPiece hvpost] at hone
  intro hrec
  have hlock := (hrec _ _ _ hpieces htorn .zero).wlock
  rw [rtagItem_readItem, htext] at hlock
  rw [htext] at hlen
  suffices hzero : (rtagReadLoop conf (logText (pre.map (lockedPiece conf)) ++
      rtagText (lockedRecord conf).item ++ List.replicate (layoutSize post) '0')
      ((logText (pre.map (lockedPiece conf)) ++ rtagText (lockedRecord conf).item ++
        List.replicate (layoutSize post) '0').length/61+2) 1 (rtagItem .zero)).wlock = 0 by
    rw [hzero] at hlock
    exact absurd hlock (by simp [lockedRecord])
  rcases Nat.lt_or_ge 59 (layoutSize post) with hlong | hshort
  · have hsplit : logText (pre.map (lockedPiece conf)) ++ rtagText (lockedRecord conf).item ++
        List.replicate (layoutSize post) '0' = (logText (pre.map (lockedPiece conf)) ++
          digits (lockedRecord conf).item) ++ '\n' :: List.replicate (layoutSize post) '0' := by
      rw [rtagText_eq]
      simp only [List.append_assoc, List.singleton_append]
    rw [hsplit] at hlen ⊢
    rw [rtagReadLoop_zeros hlong hlen]
  · have hpre : ¬∃ pre', pre = pre' ++ [none] := fun he => hbad ⟨hshort, he⟩
    obtain ⟨j, hz, hend⟩ := @zeroEnded_locked conf pre hvpre
    refine rtagReadLoop_shifted (j := j) hpos hshort (plain_logText _) ?_ hlen _ _
    rcases hend with rfl | hnone | hj
    · exact Or.inl rfl
    · exact absurd hnone hpre
    · exact Or.inr ⟨hj, hz⟩

/-- A log of a given arrangement restores its last complete record, whatever its
records hold, exactly in the two arrangements. -/
theorem torn_log_recovers_iff {layout : List (Option ℕ)}
    (hv : ∀ k, some k ∈ layout → 1 ≤ k ∧ k ≤ 59) (hsize : layoutSize layout < 2^31) :
    (∀ pieces : List (Piece conf), pieces.map Piece.shape = layout → Recovers conf pieces) ↔
      LayoutOk layout := by
  constructor
  · rintro hall pre post rfl hn
    by_contra hbad
    rw [not_or] at hbad
    exact not_recovers_locked hv hn hbad.1 hbad.2 hsize (hall _ (shape_lockedPiece hv))
  · rintro hok pieces rfl
    exact recovers_of_layoutOk hok (by rw [length_logText]; exact hsize)

/-- A log of two records and a fragment restores its last record. -/
theorem torn_log_recovers_iff_two : LayoutOk [none, none, some 59] ∧
    ∀ pieces : List (Piece .least), pieces.map Piece.shape = [none, none, some 59] →
      Recovers .least pieces := by
  have hok : LayoutOk [none, none, some 59] := by
    intro pre post hl hn
    rcases pre with _ | ⟨_, _ | ⟨_, _ | ⟨_, pre⟩⟩⟩
    · cases hl
      exact absurd List.mem_cons_self hn
    · cases hl
      exact Or.inr ⟨by decide, [], rfl⟩
    · cases hl
    · have hlen := congrArg List.length hl
      simp at hlen
  refine ⟨hok, (torn_log_recovers_iff ?_ (by decide)).mpr hok⟩
  intro k hk
  obtain rfl : k = 59 := by simpa using hk
  omega

/-- A record between two fragments of one character is not restored. -/
theorem torn_log_shifted :
    ¬Recovers .least ([none, some 1, none, some 1].map (lockedPiece .least)) := by
  refine @not_recovers_locked .least [none,
    some 1] [some 1] ?_ (by decide) (by decide) ?_ (by decide)
  · intro k hk
    obtain rfl : k = 1 := by simpa using hk
    omega
  · rintro ⟨-, pre', hpre⟩
    have hlast := congrArg List.getLast? hpre
    simp at hlast

/-- The text of complete records. -/
def recordsText (records : List RtagItem) : List Char := records.flatMap rtagText

/-- A log of complete records to which the record of a queue is written restores
the persisted fields of that queue. -/
theorem rtag_round_trip {sys : Sys} {site : RtagSite} {s : Store} {fd i off : ℕ} {append : Bool}
    {records : List RtagItem} (hcount : s.q.curRdb.optCount ≤ maxDbFileSize conf/12)
    (hrpos : s.q.curRdb.pos ≤ maxDbFileSize conf) (hwpos : s.q.curWdb.pos ≤ maxDbFileSize conf)
    (hmaxque : s.q.maxque < 2^32) (hdelay : s.q.delay < 2^32) (hlock : -2^31 ≤ s.q.wlock)
    (hlock' : s.q.wlock < 2^31) (hw : 61 ≤ sys.rtagWrite site) (hfd : s.q.rtagFd = some fd)
    (href : s.proc.fds fd = some (.rtag i append off))
    (htext : s.dir.rtag i = some (recordsText records))
    (hend : append = true ∨ off = (recordsText records).length)
    (hsize : (recordsText records).length+61 < 2^31) :
    ∃ t, (mqSmRtagWriteItem sys site s).2.dir.rtag i = some t ∧
      ∀ q, rtagItem (mqSmRtagReadItem conf t q) = rtagItem s.q := by
  have hmax := maxDbFileSize_le conf
  have htyped : (rtagItem s.q).Typed := by
    refine ⟨?_, ?_, ?_, hmaxque, hdelay, hlock, hlock'⟩
    · show s.q.curRdb.optCount < 2^32
      omega
    · show s.q.curRdb.pos < 2^32
      omega
    · show s.q.curWdb.pos < 2^32
      omega
  have hcheck : checkRtagItem conf (rtagItem s.q) = true := by
    simp only [checkRtagItem, decide_eq_true_eq]
    exact ⟨hcount, hrpos, hwpos⟩
  have hlen := length_rtagText htyped
  have hpos : (if append = true then (recordsText records).length else off) =
      (recordsText records).length := by
    rcases hend with rfl | rfl <;> simp
  refine ⟨recordsText records ++ rtagText (rtagItem s.q), ?_, fun q => ?_⟩
  · simp [mqSmRtagWriteItem, hfd, href, htext, hpos, writeText_length,
      List.take_of_length_le (show (rtagText (rtagItem s.q)).length ≤ sys.rtagWrite site by omega)]
  · rw [rtagItem_readItem, rtagReadLoop_last htyped hcheck _ (by rw [List.length_append]; omega)]

/-- A queue with a negative lock and one record in its log. -/
theorem rtag_round_trip_locked :
    ∃ s : Store, s.q.wlock = -1 ∧ s.dir.rtag 1 = some (recordsText [⟨0, 128, 128, 0, 0, 0⟩]) ∧
      ∃ t, (mqSmRtagWriteItem (Sys.quiet 0 0) .item s).2.dir.rtag 1 = some t ∧
        ∀ q, rtagItem (mqSmRtagReadItem .least t q) = ⟨3, 200, 300, 7, 2^32-1, -1⟩ := by
  let s : Store := ⟨Dir.empty.setRtag 1 (some (recordsText [⟨0, 128, 128, 0, 0, 0⟩])),
    Proc.empty.openFd (.rtag 1 true 0),
    { MqQueue.zero with
      rtagFd := some 0
      wlock := -1
      maxque := 7
      delay := 2^32-1
      curRdb := { MqDbMap.zero with pos := 200, optCount := 3 }
      curWdb := { MqDbMap.zero with pos := 300 } }⟩
  have htext : s.dir.rtag 1 = some (recordsText [⟨0, 128, 128, 0, 0, 0⟩]) := by
    simp [s]
  exact ⟨s, rfl, htext,
    @rtag_round_trip .least (Sys.quiet 0 0) .item s 0 1 0 true [⟨0, 128, 128, 0, 0, 0⟩]
    (by decide) (by decide) (by decide) (by decide) (by decide) (by decide) (by decide)
      (by decide) rfl rfl
    htext (Or.inl rfl) (by decide)⟩

end Ucmq.PositionLog
