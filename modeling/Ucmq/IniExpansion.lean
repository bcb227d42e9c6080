import Mathlib.Data.Int.Order.Basic
import Ucmq.IniVariables

/-!
# Expansion within the buffer

One run of find_token against the expansion without limits. The buffer holds the
text read, in the reference and in those around it, and the text to come; every
substitution takes a step of the unlimited expansion and leaves the length right.
A call takes a token, so the calls end, and a run that comes to the end of the
text has written the whole expansion. What refers to a cycle never does.
-/

namespace Ucmq.IniExpansion

open TextSearch MacroExpansion IniVariables

variable {ini : List IniEntry} {size fuel : ℕ} {st st' st₁ : Tokens} {t pre u rest : List Char}

/-- The buffer holds this text, with its length. -/
structure Text (size : ℕ) (st : Tokens) (t : List Char) : Prop where
  buf : ∃ junk, st.buf = t ++ '\x00' :: junk
  length : st.buf.length = size
  noZero : '\x00' ∉ t
  curLen : st.curLen = t.length

/-- A buffer with a length is in order when the length is that of its text. -/
def InOrder (size : ℕ) (s : List Char × ℤ) : Prop := s.1.length = size ∧ s.2 = (strAt s.1 0).length

/-- What happens between two states: calls take tokens, and each substitution
leaves the buffer in order. -/
structure Spent (size : ℕ) (st st' : Tokens) : Prop where
  length : st'.buf.length = size
  calls : st'.calls+st'.tokens = st.calls+st.tokens
  nonneg : 0 ≤ st'.tokens
  le : st'.tokens ≤ st.tokens
  subs : ∀ s ∈ st'.subs, s ∈ st.subs ∨ InOrder size s

/-- Tokens spent in two parts. -/
theorem Spent.trans (h : Spent size st st₁) (h' : Spent size st₁ st') : Spent size st st' := by
  refine ⟨h'.length, h'.calls.trans h.calls, h'.nonneg, h'.le.trans h.le, fun s hs => ?_⟩
  rcases h'.subs s hs with hs | hs
  · exact h.subs s hs
  · exact .inr hs

/-- The text is shorter than the buffer. -/
theorem Text.lt (h : Text size st t) : t.length < size := by
  obtain ⟨junk, hbuf⟩ := h.buf
  have := h.length
  rw [hbuf, List.length_append, List.length_cons] at this
  omega

/-- The string behind a part of the buffer ends at the first zero byte. -/
theorem strAt_append {a : List Char} {n : ℕ} (hn : n = a.length) (hu : '\x00' ∉ u) (b : List Char) :
    strAt (a ++ (u ++ '\x00' :: b)) n = u := by
  have hall : ∀ c ∈ u, (decide (c ≠ '\x00')) = true := by
    intro c hc
    exact decide_eq_true fun he => hu (he ▸ hc)
  rw [IniVariables.strAt, hn, List.drop_left, List.takeWhile_append_of_pos hall,
    List.takeWhile_cons_of_neg (by decide), List.append_nil]

/-- It is the C string at the start of the buffer. -/
theorem Text.strAt (h : Text size st t) : strAt st.buf 0 = t := by
  obtain ⟨junk, hbuf⟩ := h.buf
  rw [hbuf]
  exact @strAt_append t [] 0 rfl h.noZero junk

/-- The buffer is in order. -/
theorem Text.inOrder (h : Text size st t) : InOrder size (st.buf, st.curLen) :=
  ⟨h.length, by rw [h.strAt, h.curLen]⟩

/-- Nothing is spent by doing nothing. -/
theorem Text.refl (h : Text size st t) (hpos : 0 ≤ st.tokens) : Spent size st st :=
  ⟨h.length, rfl, hpos, le_rfl, fun _ hs => .inl hs⟩

/-- The byte behind a part of the buffer. -/
theorem byteAt_append (a b : List Char) (c : Char) : byteAt (a ++ c :: b) a.length = .ok c := by
  simp [byteAt]

/-- Replacing a part of the buffer. -/
theorem store_append {a b c cs : List Char} (h : cs.length = b.length) {off : ℤ}
    (hoff : off = a.length) :
    store (a ++ (b ++ c)) off cs = .ok (a ++ (cs ++ c)) := by
  subst hoff
  have hlen : (a ++ (b ++ c)).length = a.length+(b.length+c.length) := by
    rw [List.length_append, List.length_append]
  have hrest : (a ++ (b ++ c)).drop (a.length+cs.length) = c := by
    rw [h, ← List.append_assoc, ← List.length_append, List.drop_left]
  rw [store, if_pos (by omega), Int.toNat_natCast, List.take_left, hrest, List.append_assoc]

/-- Reading a part of the buffer. -/
theorem load_append {a b c : List Char} {off len : ℤ} (hoff : off = a.length)
    (hlen : len = b.length) :
    load (a ++ (b ++ c)) off len = .ok b := by
  subst hoff hlen
  have hall : (a ++ (b ++ c)).length = a.length+(b.length+c.length) := by
    rw [List.length_append, List.length_append]
  rw [load, if_pos (by omega), Int.toNat_natCast, Int.toNat_natCast, List.drop_left, List.take_left]

/-- A text with enough room has parts of these lengths and one byte behind. -/
theorem exists_parts {s : List Char} {m n : ℕ} (h : m+n < s.length) :
    ∃ a b c, ∃ y : Char, s = a ++ (b ++ y :: c) ∧ a.length = m ∧ b.length = n := by
  obtain ⟨y, c, hyc⟩ : ∃ y c, s.drop (m+n) = y :: c := by
    refine List.exists_cons_of_ne_nil fun hnil => ?_
    have := congrArg List.length hnil
    rw [List.length_drop, List.length_nil] at this
    omega
  refine ⟨s.take m, (s.drop m).take n, c, y, ?_, ?_, ?_⟩
  · rw [← hyc, ← List.drop_drop, List.take_append_drop, List.take_append_drop]
  · rw [List.length_take]
    omega
  · rw [List.length_take, List.length_drop]
    omega

/-- The zero byte over the closing mark ends the name. -/
theorem store_mark (pre u rest junk : List Char) :
    store (pre ++ (['$', '('] ++ (u ++ ')' :: rest)) ++ '\x00' :: junk)
      ((pre.length+2+u.length : ℕ) : ℤ) ['\x00'] =
      .ok (pre ++ (['$', '('] ++ (u ++ '\x00' :: (rest ++ '\x00' :: junk)))) := by
  have hcut := @store_append (pre ++ (['$', '('] ++ u)) [')'] (rest ++ '\x00' :: junk) ['\x00'] rfl
    ((pre.length+2+u.length : ℕ) : ℤ) (by simp; omega)
  simp only [List.append_assoc, List.cons_append, List.nil_append] at hcut ⊢
  exact hcut

/-- The rest of the text is moved and the value is written before it. -/
theorem exists_splice (pre : List Char) {v rest s : List Char}
    (hroom : v.length+rest.length < s.length) :
    ∃ b₁ b₂ junk, store (pre ++ s) (pre.length+v.length) rest = .ok b₁ ∧
      store b₁ pre.length v = .ok b₂ ∧
      store b₂ (pre.length+v.length+rest.length) ['\x00'] =
        .ok (pre ++ (v ++ rest) ++ '\x00' :: junk) ∧
      (pre ++ (v ++ rest) ++ '\x00' :: junk).length = (pre ++ s).length := by
  obtain ⟨a, b, c, y, rfl, ha, hb⟩ := exists_parts hroom
  have hmove := @store_append (pre ++ a) b (y :: c) rest hb.symm (pre.length+v.length)
    (by rw [List.length_append, ha]; rfl)
  have hcopy := @store_append pre a (rest ++ y :: c) v ha.symm pre.length rfl
  have hend :=
    @store_append (pre ++ (v ++ rest)) [y] c ['\x00'] rfl (pre.length+v.length+rest.length)
    (by simp only [List.length_append]; omega)
  simp only [List.append_assoc, List.cons_append, List.nil_append] at hmove hend
  refine ⟨_, _, c, hmove, hcopy, ?_, ?_⟩
  · simp only [List.append_assoc]
    exact hend
  · simp only [List.length_append, List.length_cons, ha, hb]
    omega

/-- The closing mark of a variable: an error, or the text with the value. -/
theorem substitute_spec (hval : ∀ k v, variableOf ini k = some v → '\x00' ∉ v)
    (h : Text size st (pre ++ (['$', '('] ++ (u ++ ')' :: rest)))) (hpos : 0 ≤ st.tokens) :
    ∃ r st', substitute ini size pre.length 2 (pre.length+2+u.length) pre.length st = .ok (r, st') ∧
      Spent size st st' ∧ st'.tokens = st.tokens ∧
      ∀ p, r = some p → ∃ v, variableOf ini u = some v ∧ p = pre.length ∧
        Text size st' (pre ++ (v ++ rest)) := by
  obtain ⟨junk, hbuf⟩ := h.buf
  have hcur : st.curLen = pre.length+2+u.length+1+rest.length := by
    rw [h.curLen]
    simp only [List.length_append, List.length_cons, List.length_nil]
    omega
  have hzero := h.noZero
  simp only [List.mem_append, List.mem_cons, not_or] at hzero
  obtain ⟨hpre, -, hu, -, hrest⟩ := hzero
  have hsize :
      (pre ++ (['$', '('] ++ (u ++ '\x00' :: (rest ++ '\x00' :: junk)))).length = size := by
    rw [← h.length, hbuf]
    simp only [List.append_assoc, List.length_append, List.length_cons]
    omega
  have hname :
      strAt (pre ++ (['$', '('] ++ (u ++ '\x00' :: (rest ++ '\x00' :: junk)))) (pre.length+2) =
        u := by
    rw [← List.append_assoc]
    exact strAt_append (by rw [List.length_append]; rfl) hu _
  rw [substitute, hbuf, store_mark]
  simp only [bind, Except.bind, hname]
  cases hv : variableOf ini u with
  | none => exact ⟨none, _, rfl, ⟨hsize, rfl, hpos, le_rfl, fun _ hs => .inl hs⟩, rfl, by simp⟩
  | some v =>
    -- what is moved is the rest of the text
    have hmoved : st.curLen-(((pre.length+2+u.length : ℕ) : ℤ)-pre.length+1)-pre.length =
        rest.length := by
      rw [hcur]
      push_cast
      omega
    have hload := @load_append (pre ++ (['$', '('] ++ (u ++ ['\x00']))) rest ('\x00' :: junk)
      (((pre.length+2+u.length : ℕ) : ℤ)+1) rest.length (by simp; omega) rfl
    simp only [List.append_assoc, List.cons_append, List.nil_append] at hload
    dsimp only
    split_ifs with hmax
    · exact ⟨none, _, rfl, ⟨hsize, rfl, hpos, le_rfl, fun _ hs => .inl hs⟩, rfl, by simp⟩
    · have hroom : v.length+rest.length <
          (['$', '('] ++ (u ++ '\x00' :: (rest ++ '\x00' :: junk))).length := by
        rw [List.length_append] at hsize
        omega
      obtain ⟨b₁, b₂, junk', hmove, hcopy, hend, hlength⟩ := exists_splice pre hroom
      rw [hsize] at hlength
      simp only [List.cons_append, List.nil_append] at hload hmove
      simp only [List.cons_append, List.nil_append, hmoved, hload, hmove, hcopy, hend]
      have htext : ∀ subs, Text size ⟨pre ++ (v ++ rest) ++ '\x00' :: junk',
          st.curLen+(v.length-(((pre.length+2+u.length : ℕ) : ℤ)-pre.length+1)), st.tokens,
          st.calls, subs⟩
          (pre ++ (v ++ rest)) := by
        intro subs
        refine ⟨⟨junk', rfl⟩, hlength, ?_, ?_⟩
        · simp only [List.mem_append, not_or]
          exact ⟨hpre, hval u v hv, hrest⟩
        · simp only [List.length_append]
          omega
      refine ⟨_, _, rfl, ⟨hlength, rfl, hpos, le_rfl, fun s hs => ?_⟩, rfl, ?_⟩
      · rcases List.mem_append.mp hs with hs | hs
        · exact .inl hs
        · rw [List.mem_singleton.mp hs]
          exact .inr (htext []).inOrder
      · rintro p hp
        exact ⟨v, rfl, (Option.some.inj hp).symm, htext _⟩

/-- The mark that opened the innermost reference; there is none outside of all. -/
def opening : List (List Char) → List Char
  | [] => []
  | _ :: _ => ['$', '(']

/-- What a run of the loop comes to, against steps of the unlimited expansion
from the text x and u read in this reference: an error, the end of the text, or
the substitution of the reference. -/
def Ends (ini : List IniEntry) (size : ℕ) (pre x u rest : List Char) (σ : List (List Char))
    (st' : Tokens) :
    Option ℕ → Prop
  | none => True
  | some p => 0 < st'.tokens ∧
    ((∃ τ w, τ ≠ [] ∧ written iniMarks τ = x ++ w ∧ p = (pre ++ (opening σ ++ w)).length ∧
        Text size st' (pre ++ (opening σ ++ w)) ∧
        Steps iniMarks (variableOf ini) ⟨(x ++ u) :: σ, rest⟩ ⟨τ ++ σ, []⟩) ∨
      ∃ rest', σ ≠ [] ∧ p = pre.length ∧ Text size st' (pre ++ rest') ∧
        Steps iniMarks (variableOf ini) ⟨(x ++ u) :: σ, rest⟩ ⟨σ, rest'⟩)

/-- The loop from a place in a reference comes to one of its ends. -/
def ScanEnds (ini : List IniEntry) (size fuel : ℕ) : Prop :=
  ∀ (pre x u rest : List Char) (σ : List (List Char)) (st : Tokens), (x = [] ∨ σ = []) →
    Text size st (pre ++ (opening σ ++ (u ++ rest))) → 0 < st.tokens →
    st.tokens.toNat*(size+3)+rest.length+1 ≤ fuel →
    ∃ r st', scanToken ini size fuel pre.length (opening σ).length pre.length
        (pre.length+(opening σ).length+u.length) st = .ok (r, st') ∧
      Spent size st st' ∧ Ends ini size pre x u rest σ st' r

/-- A call of find_token comes to one of the ends of its loop. -/
theorem findToken_ends (h : ScanEnds ini size fuel) {x : List Char} {σ : List (List Char)}
    (hx : x = [] ∨ σ = []) (ht : Text size st (pre ++ (opening σ ++ rest))) (hpos : 0 < st.tokens)
    (hfuel : (st.tokens-1).toNat*(size+3)+rest.length+1 ≤ fuel) :
    ∃ r st', findToken ini size (fuel+1) pre.length (opening σ).length pre.length st =
      .ok (r, st') ∧
      Spent size st st' ∧ st'.tokens < st.tokens ∧ Ends ini size pre x [] rest σ st' r := by
  set st₁ : Tokens := { st with tokens := st.tokens-1, calls := st.calls+1 } with hst₁
  have hspent : Spent size st st₁ := by
    refine ⟨ht.length, ?_, ?_, ?_, fun _ hs => .inl hs⟩
    · rw [hst₁]
      push_cast
      omega
    · rw [hst₁]
      dsimp only
      omega
    · rw [hst₁]
      dsimp only
      omega
  rw [findToken]
  by_cases hlast : st₁.tokens ≤ 0
  · exact ⟨none, st₁, if_pos hlast, hspent, by rw [hst₁]; dsimp only; omega, trivial⟩
  · obtain ⟨r, st', he, hs, hends⟩ :=
      h pre x [] rest σ st₁ hx ⟨ht.buf, ht.length, ht.noZero, ht.curLen⟩
      (not_le.mp hlast) hfuel
    refine ⟨r, st', ?_, hspent.trans hs, ?_, hends⟩
    · rw [← he]
      exact if_neg hlast
    · have hle := hs.le
      rw [hst₁] at hle
      dsimp only at hle
      omega

/-- At the end of the text the loop stops. -/
theorem scanToken_end (h : Text size st t) (ini : List IniEntry) (start skip : ℕ) (startOffset : ℤ)
    (hfuel : 0 < fuel) :
    scanToken ini size fuel start skip startOffset t.length st = .ok (some t.length, st) := by
  obtain ⟨junk, hbuf⟩ := h.buf
  obtain ⟨fuel, rfl⟩ : ∃ n, fuel = n+1 := ⟨fuel-1, by omega⟩
  rw [scanToken, hbuf, byteAt_append]
  rfl

/-- Steps before a run change what it comes to only by their start. -/
theorem Ends.of_steps {x u u' rest rest' : List Char} {σ : List (List Char)} {r : Option ℕ}
    (h : Ends ini size pre x u' rest' σ st' r)
    (hs : Steps iniMarks (variableOf ini) ⟨(x ++ u) :: σ, rest⟩ ⟨(x ++ u') :: σ, rest'⟩) :
    Ends ini size pre x u rest σ st' r := by
  cases r with
  | none => trivial
  | some p =>
    obtain ⟨hpos, ⟨τ, w, hτ, hw, hp, ht, hsteps⟩ | ⟨rest'', hσ, hp, ht, hsteps⟩⟩ := h
    · exact ⟨hpos, .inl ⟨τ, w, hτ, hw, hp, ht, hs.trans hsteps⟩⟩
    · exact ⟨hpos, .inr ⟨rest'', hσ, hp, ht, hs.trans hsteps⟩⟩

section Scan

variable {x r : List Char} {c : Char} {σ : List (List Char)}

/-- The byte that the loop comes to. -/
theorem byteAt_text (h : Text size st (pre ++ (opening σ ++ (u ++ c :: r)))) :
    byteAt st.buf (pre.length+(opening σ).length+u.length) = .ok c ∧ c ≠ '\x00' := by
  obtain ⟨junk, hbuf⟩ := h.buf
  have hb : st.buf = (pre ++ (opening σ ++ u)) ++ c :: (r ++ '\x00' :: junk) := by
    rw [hbuf]
    simp only [List.append_assoc, List.cons_append]
  have hlen : pre.length+(opening σ).length+u.length = (pre ++ (opening σ ++ u)).length := by
    simp only [List.length_append]
    omega
  refine ⟨by rw [hb, hlen, byteAt_append], ?_⟩
  rintro rfl
  exact h.noZero (by simp)

/-- The byte behind it. -/
theorem byteAt_next (h : Text size st (pre ++ (opening σ ++ (u ++ c :: r)))) :
    byteAt st.buf (pre.length+(opening σ).length+u.length+1) = .ok (r.headD '\x00') := by
  obtain ⟨junk, hbuf⟩ := h.buf
  have hb : st.buf = (pre ++ (opening σ ++ (u ++ [c]))) ++ (r ++ '\x00' :: junk) := by
    rw [hbuf]
    simp only [List.append_assoc, List.cons_append, List.nil_append]
  have hlen :
      pre.length+(opening σ).length+u.length+1 = (pre ++ (opening σ ++ (u ++ [c]))).length := by
    simp only [List.length_append, List.length_singleton]
    omega
  rw [hb, hlen]
  cases r with
  | nil => exact byteAt_append _ _ _
  | cons d r => exact byteAt_append _ _ _

/-- A byte that is no mark is read. -/
theorem scan_read (ih : ScanEnds ini size fuel) (hx : x = [] ∨ σ = [])
    (ht : Text size st (pre ++ (opening σ ++ (u ++ c :: r)))) (hpos : 0 < st.tokens)
    (hfuel : st.tokens.toNat*(size+3)+r.length+1 ≤ fuel)
    (hopen : ¬(c = '$' ∧ r.head? = some '(')) (hclose : c = ')' → σ = []) :
    ∃ o st', scanToken ini size fuel pre.length (opening σ).length pre.length
        (pre.length+(opening σ).length+u.length+1) st = .ok (o, st') ∧
      Spent size st st' ∧ Ends ini size pre x u (c :: r) σ st' o := by
  have ht' : Text size st (pre ++ (opening σ ++ ((u ++ [c]) ++ r))) := by
    rwa [List.append_assoc, List.singleton_append]
  obtain ⟨o, st', he, hs, hends⟩ := ih pre x (u ++ [c]) r σ st hx ht' hpos hfuel
  rw [List.length_append, List.length_singleton, ← Nat.add_assoc] at he
  refine ⟨o, st', he, hs, hends.of_steps (.single ?_)⟩
  rw [← List.append_assoc]
  exact .reads _ hopen hclose

/-- A closing mark ends the run at the start of its reference. -/
theorem scan_close (hval : ∀ k v, variableOf ini k = some v → '\x00' ∉ v)
    (hx : x = [] ∨ σ = []) (hσ : σ ≠ [])
    (ht : Text size st (pre ++ (opening σ ++ (u ++ ')' :: r)))) (hpos : 0 < st.tokens) :
    ∃ o st', substitute ini size pre.length (opening σ).length
      (pre.length+(opening σ).length+u.length)
        pre.length st = .ok (o, st') ∧
      Spent size st st' ∧ Ends ini size pre x u (')' :: r) σ st' o := by
  obtain ⟨y, σ, rfl⟩ := List.exists_cons_of_ne_nil hσ
  obtain rfl : x = [] := hx.resolve_right hσ
  obtain ⟨o, st', he, hs, htok, hsub⟩ := substitute_spec hval ht hpos.le
  refine ⟨o, st', he, hs, ?_⟩
  cases o with
  | none => trivial
  | some p =>
    obtain ⟨v, hv, hp, htext⟩ := hsub p rfl
    exact ⟨by rwa [htok], .inr ⟨v ++ r, hσ, hp, htext, .single (.closes y σ r hv)⟩⟩

/-- An opening mark starts a call. Behind its reference the loop goes on. -/
theorem scan_open (ih : ∀ n < fuel+1, ScanEnds ini size n) (hx : x = [] ∨ σ = [])
    (ht : Text size st (pre ++ (opening σ ++ (u ++ '$' :: '(' :: r)))) (hpos : 0 < st.tokens)
    (hfuel : st.tokens.toNat*(size+3)+(r.length+2)+1 ≤ fuel+1) :
    ∃ o st', scanToken ini size (fuel+1) pre.length (opening σ).length pre.length
        (pre.length+(opening σ).length+u.length) st = .ok (o, st') ∧
      Spent size st st' ∧ Ends ini size pre x u ('$' :: '(' :: r) σ st' o := by
  obtain ⟨k, hk⟩ : ∃ k, st.tokens.toNat = k+1 := ⟨st.tokens.toNat-1, by omega⟩
  rw [hk, Nat.succ_mul] at hfuel
  obtain ⟨m, rfl⟩ : ∃ m, fuel = m+1 := ⟨fuel-1, by omega⟩
  have hplace : pre.length+(opening σ).length+u.length = (pre ++ (opening σ ++ u)).length := by
    simp only [List.length_append]
    omega
  have hoffset : (pre.length : ℤ)+(((pre.length+(opening σ).length+u.length : ℕ) : ℤ)-pre.length) =
      (pre ++ (opening σ ++ u)).length := by
    rw [hplace]
    omega
  have ht' : Text size st ((pre ++ (opening σ ++ u)) ++ (opening ((x ++ u) :: σ) ++ r)) := by
    simpa only [opening, List.append_assoc, List.cons_append, List.nil_append] using ht
  obtain ⟨o, st₁, hcall, hspent, hless, hends⟩ := findToken_ends (ih m (by omega)) (x := [])
    (σ := (x ++ u) :: σ) (.inl rfl) ht' hpos (by rw [show (st.tokens-1).toNat = k by omega]; omega)
  have hfind : findToken ini size (m+1) (pre.length+(opening σ).length+u.length) 2
      ((pre.length : ℤ)+(((pre.length+(opening σ).length+u.length : ℕ) : ℤ)-pre.length)) st =
        .ok (o, st₁) := by
    rw [hoffset, hplace]
    exact hcall
  rw [scanToken]
  simp only [(byteAt_text ht).1, byteAt_next ht, bind, Except.bind, if_neg (byteAt_text ht).2,
    List.headD_cons, if_true, hfind]
  have hstep :
      Steps iniMarks (variableOf ini) ⟨(x ++ u) :: σ, '$' :: '(' :: r⟩ ⟨[] :: (x ++ u) :: σ, r⟩ :=
    .single (.opens _ _)
  cases o with
  | none => exact ⟨none, st₁, rfl, hspent, trivial⟩
  | some p =>
    obtain ⟨hpos₁, ⟨τ, w, hτ, hw, hp, htext, hsteps⟩ | ⟨rest, -, hp, htext, hsteps⟩⟩ := hends
    · -- the text ended in the reference, and ends here too
      subst hp
      refine ⟨_, st₁, scanToken_end htext ini _ _ _ (by omega), hspent, hpos₁, .inl ⟨τ ++ [x ++ u],
        u ++ '$' :: '(' :: w, by simp, ?_, ?_, ?_, ?_⟩⟩
      · rw [written_concat hτ, hw, List.nil_append, List.append_assoc]
        rfl
      · simp only [opening, List.append_assoc, List.cons_append, List.nil_append]
      · simpa only [opening, List.append_assoc, List.cons_append, List.nil_append] using htext
      · rw [List.append_assoc, List.singleton_append]
        exact hstep.trans hsteps
    · -- the value is read from its start
      subst hp
      rw [List.append_assoc, List.append_assoc] at htext
      have hlt := htext.lt
      simp only [List.length_append] at hlt
      have hmul : st₁.tokens.toNat*(size+3) ≤ k*(size+3) := Nat.mul_le_mul_right _ (by omega)
      obtain ⟨o', st', he, hs, hends'⟩ :=
        ih (m+1) (by omega) pre x u rest σ st₁ hx htext hpos₁ (by omega)
      rw [hplace] at he
      exact ⟨o', st', he, hspent.trans hs, hends'.of_steps (hstep.trans hsteps)⟩

end Scan

/-- The loop comes to one of its ends. -/
theorem scanEnds (hval : ∀ k v, variableOf ini k = some v → '\x00' ∉ v) (fuel : ℕ) :
    ScanEnds ini size fuel := by
  induction fuel using Nat.strongRecOn with
  | _ fuel ih =>
    intro pre x u rest σ st hx ht hpos hfuel
    obtain ⟨fuel, rfl⟩ : ∃ n, fuel = n+1 := ⟨fuel-1, by omega⟩
    have hn := ih fuel (Nat.lt_succ_self fuel)
    cases rest with
    | nil =>
      have hlen : pre.length+(opening σ).length+u.length = (pre ++ (opening σ ++ u)).length := by
        simp only [List.length_append]
        omega
      rw [List.append_nil] at ht
      rw [hlen]
      refine ⟨_, st, scanToken_end ht ini _ _ _ (by omega), ht.refl hpos.le, hpos, .inl ?_⟩
      exact ⟨[x ++ u], u, List.cons_ne_nil _ _, rfl, rfl, ht, .refl⟩
    | cons c r =>
      by_cases hopen : c = '$' ∧ r.head? = some '('
      · obtain ⟨rfl, hr⟩ := hopen
        obtain ⟨r, rfl⟩ := List.head?_eq_some_iff.mp hr
        exact scan_open ih hx ht hpos hfuel
      · rw [List.length_cons] at hfuel
        obtain ⟨hbyte, hzero⟩ := byteAt_text ht
        have hread := scan_read hn hx ht hpos (by omega) hopen
        rw [scanToken]
        simp only [hbyte, bind, Except.bind, if_neg hzero]
        by_cases hdollar : c = '$'
        · have hleft : ¬r.headD '\x00' = '(' := by
            intro h
            cases r with
            | nil => exact absurd h (by decide)
            | cons d r => exact hopen ⟨hdollar, congrArg some h⟩
          rw [if_pos hdollar, byteAt_next ht]
          dsimp only
          rw [if_neg hleft]
          exact hread fun h => absurd (hdollar.symm.trans h) (by decide)
        · rw [if_neg hdollar]
          by_cases hclose : c = ')' ∧ (opening σ).length ≠ 0
          · rw [if_pos hclose]
            obtain ⟨rfl, hskip⟩ := hclose
            exact scan_close hval hx (by rintro rfl; exact hskip rfl) ht hpos
          · rw [if_neg hclose]
            refine hread fun h => ?_
            by_contra hσ
            refine hclose ⟨h, ?_⟩
            obtain ⟨y, σ, rfl⟩ := List.exists_cons_of_ne_nil hσ
            exact Nat.succ_ne_zero _

/-- Fuel that one value needs. -/
def lineFuel (size : ℕ) : ℕ := 1024*(size+3)+2

/-- What is promised of the expansion of one value. -/
structure LineOk (size : ℕ) (l : Line) : Prop where
  /-- The calls of find_token are bounded. -/
  calls : (l.last.calls : ℤ) ≤ maxTokens
  /-- After each substitution the length is that of the text. -/
  subs : ∀ s ∈ l.last.subs, InOrder size s
  /-- A result is the whole expansion. -/
  complete : ∀ t, l.result = some t → Expands iniMarks (variableOf l.ini) l.value t
  /-- An expansion without end is an error. -/
  endless : Endless iniMarks (variableOf l.ini) l.value → l.result = none
  /-- What leads to a cycle is an error. -/
  cyclic : ReachesCycle iniMarks (variableOf l.ini) l.value → l.result = none

/-- A value with its expansion as the result. -/
theorem LineOk.of_expands {l : Line} {t : List Char} (hr : l.result = some t)
    (hexp : Expands iniMarks (variableOf l.ini) l.value t) (hcalls : (l.last.calls : ℤ) ≤ maxTokens)
    (hsubs : ∀ s ∈ l.last.subs, InOrder size s) : LineOk size l := by
  refine ⟨hcalls, hsubs, fun t' ht' => ?_, fun h => ?_, fun h => ?_⟩
  · rwa [← Option.some.inj (hr.symm.trans ht')]
  · exact absurd hexp (not_expands_of_endless h)
  · exact absurd hexp (not_expands_of_reachesCycle h)

/-- Text without an opening mark is read where it stands. -/
theorem steps_reads {find : List Char → Option (List Char)} {a b : List Char} (u : List Char)
    (h : ∀ m < a.length, ¬Stands id "$(".toList ((a ++ b).drop m)) :
    Steps iniMarks find ⟨[u], a ++ b⟩ ⟨[u ++ a], b⟩ := by
  induction a generalizing u with
  | nil => rw [List.append_nil, List.nil_append]
  | cons c a ih =>
    have hfirst := h 0 (by simp)
    have hrest : ∀ m < a.length, ¬Stands id "$(".toList ((a ++ b).drop m) := by
      intro m hm
      have := h (m+1) (by simpa using hm)
      simpa using this
    refine .head (.reads u (fun hc => hfirst ?_) fun _ => rfl) ?_
    · obtain ⟨rfl, hhead⟩ := hc
      obtain ⟨r, hr⟩ := List.head?_eq_some_iff.mp hhead
      have hr' : a ++ b = '(' :: r := hr
      refine ⟨r, ?_⟩
      rw [List.map_id, List.map_id, List.drop_zero, List.cons_append, hr']
      rfl
    · have := ih (u ++ [c]) hrest
      rwa [List.append_assoc, List.singleton_append] at this

/-- The copy of a value fills the buffer up to its end. -/
theorem store_text {str buf : List Char} (h : str.length < buf.length) :
    ∃ text junk, store buf 0 str = .ok text ∧
      store text str.length ['\x00'] = .ok (str ++ '\x00' :: junk) ∧
      (str ++ '\x00' :: junk).length = buf.length := by
  obtain ⟨a, b, c, y, hbuf, ha, hb⟩ := @exists_parts buf str.length 0 h
  obtain rfl : b = [] := List.length_eq_zero_iff.mp hb
  have hcopy := @store_append [] a (y :: c) str ha.symm 0 rfl
  have hend := @store_append str [y] c ['\x00'] rfl str.length rfl
  refine ⟨str ++ y :: c, c, ?_, hend, ?_⟩
  · rw [hbuf]
    exact hcopy
  · rw [hbuf]
    simp only [List.length_append, List.length_cons, List.length_nil, ha, Nat.zero_add]

section Value

variable {str buf : List Char}

/-- A value without an opening mark is its own expansion. -/
theorem expands_self (ini : List IniEntry) (h : find id "$(".toList str = none) :
    Expands iniMarks (variableOf ini) str str := by
  have hplain : ∀ m < str.length, ¬Stands id "$(".toList ((str ++ []).drop m) := by
    intro m hm hs
    rw [List.append_nil] at hs
    obtain ⟨k, -, hk⟩ := exists_find_le hs hm.le
    exact absurd (hk.symm.trans h) (by simp)
  have hsteps := @steps_reads (variableOf ini) str [] [] hplain
  rw [List.append_nil] at hsteps
  exact ⟨[str], hsteps, rfl⟩

/-- From the first opening mark on the call ends with an error or with the whole
expansion in the buffer. -/
theorem findToken_line (hval : ∀ k v, variableOf ini k = some v → '\x00' ∉ v) {offset : ℕ}
    (hfind : find id "$(".toList str = some offset) (ht : Text size st str) (hpos : 0 < st.tokens)
    (hfuel : (st.tokens-1).toNat*(size+3)+str.length+2 ≤ fuel) :
    ∃ r st', findToken ini size fuel offset 0 offset st = .ok (r, st') ∧ Spent size st st' ∧
      (r = none ∨ ∃ t, Text size st' t ∧ Expands iniMarks (variableOf ini) str t) := by
  obtain ⟨hle, -, hfirst⟩ := find_eq_some.mp hfind
  obtain ⟨a, rest, rfl, ha⟩ : ∃ a rest, str = a ++ rest ∧ a.length = offset :=
    ⟨str.take offset, str.drop offset, (List.take_append_drop _ _).symm,
      by rw [List.length_take]; omega⟩
  subst ha
  obtain ⟨fuel, rfl⟩ : ∃ n, fuel = n+1 := ⟨fuel-1, by omega⟩
  rw [List.length_append] at hfuel
  obtain ⟨r, st', he, hs, -, hends⟩ :=
    findToken_ends (scanEnds hval fuel) (x := a) (σ := []) (.inr rfl) ht hpos
    (by omega)
  refine ⟨r, st', he, hs, ?_⟩
  cases r with
  | none => exact .inl rfl
  | some p =>
    obtain ⟨-, ⟨τ, w, -, hw, -, htext, hsteps⟩ | ⟨-, hσ, -⟩⟩ := hends
    · rw [List.append_nil, List.append_nil] at hsteps
      exact .inr ⟨a ++ w, htext, τ, (steps_reads [] hfirst).trans hsteps, hw⟩
    · exact absurd rfl hσ

/-- The expansion of one value. -/
theorem replaceInLine_spec (hval : ∀ k v, variableOf ini k = some v → '\x00' ∉ v)
    (hzero : '\x00' ∉ str) (hlen : str.length < buf.length) (hfuel : lineFuel buf.length ≤ fuel) :
    ∃ r st, replaceInLine ini fuel str buf = .ok (r, st) ∧ LineOk buf.length ⟨ini, str, r, st⟩ ∧
      st.buf.length = buf.length ∧ ∀ t, r = some t → '\x00' ∉ t ∧ t.length < buf.length := by
  unfold replaceInLine
  cases hf : find id "$(".toList str with
  | none =>
    have hexp := expands_self ini hf
    refine ⟨some str, _, rfl, .of_expands rfl hexp (Int.natCast_nonneg 1024) (by simp), rfl, ?_⟩
    rintro t ⟨⟩
    exact ⟨hzero, hlen⟩
  | some offset =>
    obtain ⟨text, junk, hcopy, hend, hsize⟩ := store_text hlen
    have ht : Text buf.length ⟨str ++ '\x00' :: junk, str.length, maxTokens, 0, []⟩ str :=
      ⟨⟨junk, rfl⟩, hsize, hzero, rfl⟩
    have hneed : (maxTokens-1).toNat*(buf.length+3)+str.length+2 ≤ fuel := by
      have hthousand : (maxTokens-1).toNat = 1023 := rfl
      rw [lineFuel] at hfuel
      rw [hthousand]
      omega
    obtain ⟨r, st, he, hs, hr⟩ := findToken_line hval hf ht (show 0 < maxTokens by decide) hneed
    have hcalls : (st.calls : ℤ) ≤ maxTokens := by
      have hsum := hs.calls
      have hnonneg := hs.nonneg
      push_cast at hsum
      omega
    have hsubs : ∀ s ∈ st.subs, InOrder buf.length s := by
      intro s hmem
      exact (hs.subs s hmem).resolve_left (by simp)
    simp only [hcopy, hend, he, bind, Except.bind]
    cases r with
    | none =>
      exact ⟨none, st, rfl, ⟨hcalls, hsubs, by simp, fun _ => rfl, fun _ => rfl⟩,
        hs.length, by simp⟩
    | some p =>
      obtain ⟨t, htext, hexp⟩ := hr.resolve_left (by simp)
      -- shorter or not, the value is the text of the buffer
      have hvalue :
        (if st.curLen ≤ str.length then (load st.buf 0 st.curLen).map fun v => (some v, st)
          else .ok (some (strAt st.buf 0), st)) = .ok (some t, st) := by
        obtain ⟨junk, hbuf⟩ := htext.buf
        have hload : load st.buf 0 st.curLen = .ok t := by
          rw [hbuf]
          exact @load_append [] t ('\x00' :: junk) 0 st.curLen rfl htext.curLen
        rw [hload, htext.strAt]
        split_ifs <;> rfl
      refine ⟨some t, st, hvalue, .of_expands rfl hexp hcalls hsubs, hs.length, ?_⟩
      rintro _ ⟨⟩
      exact ⟨htext.noZero, htext.lt⟩

example :
    (replaceInLine [⟨"a".toList, ["b)".toList]⟩, ⟨"xb".toList, ["c".toList]⟩] 100 "<$(x$(a)>".toList
    (List.replicate 32 'z')).map (·.1) = .ok (some "<c>".toList) := by decide +kernel

end Value

end Ucmq.IniExpansion
