import Mathlib.Data.List.TakeWhile
import Mathlib.Order.Nat
import Mathlib.Tactic.Common
import Mathlib.Tactic.NormNum

/-!
# Zero-padded decimal text

Fixed-width decimal columns as printed by the C format directive with a zero
flag, and the C conversions that read them back. Equal-width columns compare
as strings exactly as their values compare as numbers, which fails as soon as
the widths differ.
-/

namespace Ucmq.DecimalText

/-- Decimal digits of n, padded on the left with zeros to width w. A longer
number is not cut. -/
def padDec (w n : ℕ) : List Char :=
  List.replicate (w-(Nat.toDigits 10 n).length) '0' ++ Nat.toDigits 10 n

/-- Numeric value of a digit string, most significant digit first. -/
abbrev decValue (s : List Char) : ℕ := Nat.ofDigitChars 10 s 0

/-- White space skipped by the C number conversions. -/
def isSpace (c : Char) : Bool := c = ' ' ∨ (9 ≤ c.toNat ∧ c.toNat ≤ 13)

/-- C strtoll at base ten: leading white space, an optional sign, then the
longest digit prefix, saturated to 64 bits. -/
def strtoll (s : List Char) : ℤ :=
  let t := s.dropWhile isSpace
  let value (u : List Char) : ℤ := decValue (u.takeWhile Char.isDigit)
  match t with
  | '-' :: u => max (-(value u)) (-2^63)
  | '+' :: u => min (value u) (2^63-1)
  | u => min (value u) (2^63-1)

/-- Tokens of a string at a separator, as successive strtok calls return them:
the nonempty runs of other characters. The first list is the run read so far. -/
def strtok (sep : Char) : List Char → List Char → List (List Char)
  | run, [] => if run = [] then [] else [run]
  | run, c :: s =>
    if c = sep then (if run = [] then strtok sep [] s else run :: strtok sep [] s)
    else strtok sep (run ++ [c]) s

/-- Reduction of an integer to the signed 32-bit range. -/
def toI32 (x : ℤ) : ℤ := x.bmod (2^32)

/-- C atoi of the GNU library: strtol narrowed to int. -/
def atoi (s : List Char) : ℤ := toI32 (strtoll s)

/-- A number in range keeps its value as an int. -/
theorem toI32_of_bounds {x : ℤ} (hl : -2^31 ≤ x) (hu : x < 2^31) : toI32 x = x := by
  unfold toI32
  rw [Int.bmod_def]
  split <;> omega

/-- A size is positive as a signed 32-bit integer when its low 31 bits are not
all zero and the next one is. -/
theorem toI32_pos_iff (n : ℕ) : 0 < toI32 n ↔ 0 < n%2^32 ∧ n%2^32 < 2^31 := by
  unfold toI32
  rw [Int.bmod_def]
  split <;> omega

/-- Which numbers are not negative as an int. -/
theorem toI32_nonneg_iff (n : ℕ) : 0 ≤ toI32 n ↔ n%2^32 < 2^31 := by
  unfold toI32
  rw [Int.bmod_def]
  split <;> omega

/-- Characters other than the separator extend the current run. -/
theorem strtok_run {sep : Char} {u : List Char} (h : sep ∉ u) (run s : List Char) :
    strtok sep run (u ++ s) = strtok sep (run ++ u) s := by
  induction u generalizing run with
  | nil => simp
  | cons c u ih =>
    have hc : c ≠ sep := fun he => h (by simp [he])
    rw [List.cons_append, strtok, if_neg hc, ih fun hm => h (List.mem_cons_of_mem _ hm),
      List.append_assoc, List.singleton_append]

/-- A padded number is written in digits. -/
theorem isDigit_padDec {w n : ℕ} {c : Char} (h : c ∈ padDec w n) : c.isDigit := by
  rcases List.mem_append.mp h with hz | hd
  · rw [(List.mem_replicate.mp hz).2]
    decide
  · exact Nat.isDigit_of_mem_toDigits (by decide) (by decide) hd

/-- A number that fits its column fills it exactly. -/
theorem length_padDec {w n : ℕ} (hw : 0 < w) (hn : n < 10^w) : (padDec w n).length = w := by
  have hl := (Nat.length_toDigits_le_iff (b := 10) (by decide) hw).mpr hn
  simp only [padDec, List.length_append, List.length_replicate]
  omega

/-- The printed column reads back as the number. -/
@[simp] theorem decValue_padDec (w n : ℕ) : decValue (padDec w n) = n := by
  simp [decValue, padDec, Nat.ofDigitChars_append]

/-- Different numbers are written differently. -/
theorem padDec_injective (w : ℕ) {m n : ℕ} (h : padDec w m = padDec w n) : m = n := by
  rw [← decValue_padDec w m, h, decValue_padDec]

/-- A number is written in at least one digit. -/
theorem padDec_ne_nil (w n : ℕ) : padDec w n ≠ [] := by
  simp [padDec]

/-- A digit character is worth less than ten. -/
theorem digit_lt_ten {c : Char} (h : c.isDigit) : c.toNat - '0'.toNat < 10 := by
  simp only [Char.isDigit, Bool.and_eq_true, decide_eq_true_eq, UInt32.le_iff_toNat_le] at h
  simp only [Char.toNat, Char.reduceVal] at *
  have h1 : (57 : UInt32).toNat = 57 := rfl
  have h2 : (48 : UInt32).toNat = 48 := rfl
  omega

/-- Value of a numeral with a digit in front. -/
theorem decValue_cons (c : Char) (s : List Char) :
    decValue (c :: s) = 10^s.length*(c.toNat - '0'.toNat)+decValue s := by
  rw [decValue, Nat.ofDigitChars_cons, Nat.ofDigitChars_eq_ofDigitChars_zero]
  simp

/-- A string of k digits is worth less than the k-th power of ten. -/
theorem decValue_lt {s : List Char} (h : ∀ c ∈ s, c.isDigit) : decValue s < 10^s.length := by
  induction s with
  | nil => simp
  | cons c s ih =>
    have hd := digit_lt_ten (h c (by simp))
    have hs := ih fun x hx => h x (List.mem_cons_of_mem _ hx)
    rw [decValue_cons, List.length_cons, pow_succ]
    have hm : 10^s.length*(c.toNat - '0'.toNat) ≤ 10^s.length*9 := Nat.mul_le_mul_left _ (by omega)
    omega

/-- Equal-width digit strings in increasing string order have increasing
values. -/
theorem decValue_lt_of_lt {s t : List Char} (hl : s.length = t.length)
    (hs : ∀ c ∈ s, c.isDigit) (ht : ∀ c ∈ t, c.isDigit) (h : s < t) : decValue s < decValue t := by
  induction s generalizing t with
  | nil =>
    cases t with
    | nil => exact absurd h (List.lt_irrefl _)
    | cons _ _ => simp at hl
  | cons c s ih =>
    cases t with
    | nil => simp at hl
    | cons b t =>
      have hl' : s.length = t.length := by simpa using hl
      have hv := decValue_lt fun x hx => hs x (List.mem_cons_of_mem _ hx)
      rw [decValue_cons, decValue_cons, hl']
      rcases List.cons_lt_cons_iff.mp h with hcb | ⟨rfl, hst⟩
      · have hc := hs c (by simp)
        have hb := ht b (by simp)
        have hlt : c.toNat - '0'.toNat < b.toNat - '0'.toNat := by
          simp only [Char.isDigit, Bool.and_eq_true, decide_eq_true_eq,
            UInt32.le_iff_toNat_le] at hc
          have hcn : c.toNat < b.toNat := hcb
          have hz : '0'.toNat = 48 := rfl
          have hz' : ('0'.val).toNat = 48 := rfl
          have hcv : c.val.toNat = c.toNat := rfl
          omega
        rw [hl'] at hv
        have hm : 10^t.length*(c.toNat - '0'.toNat+1) ≤ 10^t.length*(b.toNat - '0'.toNat) :=
          Nat.mul_le_mul_left _ hlt
        rw [Nat.mul_add] at hm
        omega
      · have := ih hl' (fun x hx => hs x (List.mem_cons_of_mem _ hx))
          (fun x hx => ht x (List.mem_cons_of_mem _ hx)) hst
        omega

/-- Within one column width, string order is numeric order. -/
theorem padDec_lt_iff {w m n : ℕ} (hw : 0 < w) (hm : m < 10^w) (hn : n < 10^w) :
    padDec w m < padDec w n ↔ m < n := by
  have hlen : (padDec w m).length = (padDec w n).length := by
    rw [length_padDec hw hm, length_padDec hw hn]
  have key : ∀ {a b : ℕ}, (padDec w a).length = (padDec w b).length →
      padDec w a < padDec w b → a < b := by
    intro a b hl h
    have := decValue_lt_of_lt hl (fun _ => isDigit_padDec) (fun _ => isDigit_padDec) h
    simpa using this
  constructor
  · exact key hlen
  · intro h
    by_contra hge
    rcases List.le_iff_lt_or_eq.mp (List.not_lt.mp hge) with hgt | heq
    · exact absurd (key hlen.symm hgt) (by omega)
    · exact absurd (padDec_injective w heq) h.ne'

/-- A digit is no white space. -/
theorem isSpace_of_isDigit {c : Char} (h : c.isDigit) : isSpace c = false := by
  simp only [Char.isDigit, Bool.and_eq_true, decide_eq_true_eq, UInt32.le_iff_toNat_le] at h
  have hz : ('0'.val).toNat = 48 := rfl
  have hcv : c.val.toNat = c.toNat := rfl
  simp only [isSpace, decide_eq_false_iff_not, not_or]
  constructor
  · rintro rfl
    simp at h
  · omega

/-- A number without a sign. -/
theorem strtoll_of_unsigned {s u : List Char} {c : Char} (hs : s.dropWhile isSpace = c :: u)
    (hminus : c ≠ '-') (hplus : c ≠ '+') :
    strtoll s = min (decValue ((c :: u).takeWhile Char.isDigit) : ℤ) (2^63-1) := by
  unfold strtoll
  rw [hs]
  dsimp only
  split
  · rename_i v he
    exact absurd (List.cons.inj he).1 hminus
  · rename_i v he
    exact absurd (List.cons.inj he).1 hplus
  · rfl

/-- A digit string is read up to the first character that is no digit. -/
theorem strtoll_digits_append {s : List Char} (hs : s ≠ []) (h : ∀ c ∈ s, c.isDigit)
    (hv : decValue s < 2^63) {t : List Char} (ht : t.takeWhile Char.isDigit = []) :
    strtoll (s ++ t) = decValue s := by
  have hmin : min ((decValue s : ℕ) : ℤ) (2^63-1) = decValue s := by
    rw [min_eq_left]
    omega
  have htake : (s ++ t).takeWhile Char.isDigit = s := by
    rw [List.takeWhile_append_of_pos h, ht, List.append_nil]
  obtain ⟨c, s, rfl⟩ := List.exists_cons_of_ne_nil hs
  have hc := h c (by simp)
  have hminus : c ≠ '-' := by rintro rfl; simp at hc
  have hplus : c ≠ '+' := by rintro rfl; simp at hc
  have hdrop : (c :: s ++ t).dropWhile isSpace = c :: (s ++ t) := by simp [isSpace_of_isDigit hc]
  rw [strtoll_of_unsigned hdrop hminus hplus, ← List.cons_append, htake, hmin]

/-- Reading a digit string of a column back with strtoll. -/
theorem strtoll_digits {s : List Char} (h : ∀ c ∈ s, c.isDigit) (hv : decValue s < 2^63) :
    strtoll s = decValue s := by
  cases s with
  | nil => rfl
  | cons c s =>
    have := strtoll_digits_append (List.cons_ne_nil c s) h hv (t := []) rfl
    rwa [List.append_nil] at this

/-- Text after a character that ends a run does not change the run. -/
theorem takeWhile_append_of_stop {p : Char → Bool} {x : Char} (hp : p x = false) {s : List Char}
    (h : x ∈ s) (t : List Char) : (s ++ t).takeWhile p = s.takeWhile p := by
  induction s with
  | nil => simp at h
  | cons c s ih =>
    cases hc : p c with
    | false => simp [hc]
    | true =>
      have hne : x ≠ c := by rintro rfl; simp [hp] at hc
      simp [hc, ih ((List.mem_cons.mp h).resolve_left hne)]

/-- A run that is skipped ends before the character that ends it. -/
theorem dropWhile_append_of_stop {p : Char → Bool} {x : Char} (hp : p x = false) {s : List Char}
    (h : x ∈ s) (t : List Char) : (s ++ t).dropWhile p = s.dropWhile p ++ t ∧
    x ∈ s.dropWhile p := by
  induction s with
  | nil => simp at h
  | cons c s ih =>
    cases hc : p c with
    | false => simp [hc, h]
    | true =>
      have hne : x ≠ c := by rintro rfl; simp [hp] at hc
      obtain ⟨h₁, h₂⟩ := ih ((List.mem_cons.mp h).resolve_left hne)
      simp [hc, h₁, h₂]

/-- Text that does not lengthen the digits does not change what is read. -/
theorem strtoll_append_of_digits {s t u : List Char} {c : Char} (hs : s.dropWhile isSpace = c :: u)
    (hst : (s ++ t).dropWhile isSpace = c :: (u ++ t))
    (hsign : c = '-' ∨ c = '+' → (u ++ t).takeWhile Char.isDigit = u.takeWhile Char.isDigit)
    (hdigits : (c :: (u ++ t)).takeWhile Char.isDigit = (c :: u).takeWhile Char.isDigit) :
    strtoll (s ++ t) = strtoll s := by
  by_cases hminus : c = '-'
  · subst hminus
    simp only [strtoll, hst, hs, hsign (Or.inl rfl)]
  by_cases hplus : c = '+'
  · subst hplus
    simp only [strtoll, hst, hs, hsign (Or.inr rfl)]
  · rw [strtoll_of_unsigned hst hminus hplus, strtoll_of_unsigned hs hminus hplus, hdigits]

/-- Text after a colon does not change what is read. -/
theorem strtoll_append_of_colon {s : List Char} (h : ':' ∈ s) (t : List Char) :
    strtoll (s ++ t) = strtoll s := by
  obtain ⟨hdrop, hm⟩ := @dropWhile_append_of_stop isSpace ':' (by decide) s h t
  have hdigit : Char.isDigit ':' = false := by decide
  cases hs : s.dropWhile isSpace with
  | nil => simp [hs] at hm
  | cons c u =>
    rw [hs] at hm hdrop
    refine strtoll_append_of_digits hs hdrop (fun hc => ?_) (takeWhile_append_of_stop hdigit hm t)
    have hne : ':' ≠ c := by
      rcases hc with rfl | rfl <;> decide
    exact takeWhile_append_of_stop hdigit ((List.mem_cons.mp hm).resolve_left hne) t

/-- Text after a line with some text on it does not change what is read. -/
theorem strtoll_append_of_line {s : List Char} (h : ∃ c ∈ s, isSpace c = false)
    (hend : ['\n'] <:+ s) (t : List Char) : strtoll (s ++ t) = strtoll s := by
  obtain ⟨x, hx, hspace⟩ := h
  obtain ⟨hdrop, hm⟩ := @dropWhile_append_of_stop isSpace x hspace s hx t
  have hdigit : Char.isDigit '\n' = false := by decide
  cases hs : s.dropWhile isSpace with
  | nil => simp [hs] at hm
  | cons c u =>
    rw [hs] at hdrop
    have hc : isSpace c = false := by
      have hhead := List.head?_dropWhile_not isSpace s
      rw [hs] at hhead
      simpa using hhead
    have hlast : '\n' ∈ c :: u := by
      have hsuffix : c :: u <:+ s := hs ▸ List.dropWhile_suffix _
      have hcut := List.suffix_of_suffix_length_le hend hsuffix (by simp)
      exact hcut.subset List.mem_cons_self
    have htail : '\n' ∈ u := by
      refine (List.mem_cons.mp hlast).resolve_left ?_
      rintro rfl
      exact absurd hc (by decide)
    exact strtoll_append_of_digits hs hdrop (fun _ => takeWhile_append_of_stop hdigit htail t)
      (takeWhile_append_of_stop hdigit hlast t)

/-- Blanks before a text do not change what is read. -/
theorem strtoll_append_of_space {s : List Char} (h : ∀ c ∈ s, isSpace c = true) (t : List Char) :
    strtoll (s ++ t) = strtoll t := by
  have hdrop : (s ++ t).dropWhile isSpace = t.dropWhile isSpace := by
    rw [List.dropWhile_append_of_pos h]
  unfold strtoll
  rw [hdrop]

/-- Blanks skipped beforehand do not change what is read. -/
theorem strtoll_dropWhile {p : Char → Bool} (hp : ∀ c, p c = true → isSpace c = true)
    (s : List Char) :
    strtoll (s.dropWhile p) = strtoll s := by
  conv_rhs => rw [← List.takeWhile_append_dropWhile (p := p) (l := s)]
  exact (strtoll_append_of_space (fun c hc => hp c (List.mem_takeWhile_imp hc)) _).symm

end Ucmq.DecimalText
