import Ucmq.Evhttp

/-!
# The grammar of queue names

A name is the list of its characters, one for each byte before the terminator.
req_qname_check reads its length into an int and walks it with another int. A length
of 2^32 and a few bytes more is taken for a short one, and then the index overflows,
which the language leaves undefined, unless a character is refused before. Every other
name is accepted exactly when it follows the grammar.
-/

namespace Ucmq.QnameGrammar

open DecimalText Evhttp

/-- What the language leaves undefined here. -/
inductive IntFault where
  | overflow
  deriving DecidableEq

/-- The next index, an int. -/
def nextIndex (i : ℕ) : Except IntFault ℕ := if i+1 < 2^31 then .ok (i+1) else .error .overflow

/-- Longest queue name. -/
def maxQueueNameLen : ℤ := 32

/-- The range tests: neither a digit nor a letter. -/
def OutOfRanges (c : Char) : Prop :=
  ¬('0' ≤ c ∧ c ≤ '9') ∧ (¬('a' ≤ c ∧ c ≤ 'z') ∧ ¬('A' ≤ c ∧ c ≤ 'Z'))

instance (c : Char) : Decidable (OutOfRanges c) := inferInstanceAs (Decidable (_ ∧ _))

/-- The character at an index is refused, with the one behind it looked at only
when it is an underscore and not the first one. -/
def refused (i : ℕ) (c next : Char) : Except IntFault Bool :=
  if OutOfRanges c then
    if c ≠ '_' ∨ (c = '_' ∧ i = 0) then .ok true
    else do
      let _ ← nextIndex i
      .ok (next = '\x00' ∧ c = '_')
  else .ok false

/-- The loop over the characters from an index on, up to the terminator. -/
def scanQname : ℕ → List Char → Except IntFault Bool
  | _, [] => .ok true
  | i, c :: str => do
    let r ← refused i c (str.headD '\x00')
    if r then .ok false
    else do
      let i ← nextIndex i
      scanQname i str

/-- Check of a queue name with the integers of the machine. -/
def reqQnameCheckInt (qname : Option (List Char)) : Except IntFault Bool :=
  match qname with
  | none => .ok false
  | some str =>
    let qnameLen := toI32 str.length
    if qnameLen ≤ 0 ∨ maxQueueNameLen < qnameLen then .ok false else scanQname 0 str

/-- An ASCII letter, digit or underscore. -/
def NameChar (c : Char) : Prop := c.isAlphanum ∨ c = '_'

/-- The grammar of queue names. -/
structure QueueName (str : List Char) : Prop where
  length_pos : 1 ≤ str.length
  length_le : str.length ≤ 32
  chars : ∀ c ∈ str, NameChar c
  first : str.head? ≠ some '_'
  last : str.getLast? ≠ some '_'

/-- The check comes to an end and accepts the name exactly when it follows the
grammar, so with no dot and no separator in it. -/
def JudgedByGrammar (str : List Char) : Prop :=
  ∃ b, reqQnameCheckInt (some str) = .ok b ∧ (b = true ↔ QueueName str) ∧
    (b = true → '.' ∉ str ∧ '/' ∉ str)

/-- A length that an int takes for a short one, with nothing to refuse before the
index overflows. -/
structure Overflows (str : List Char) : Prop where
  length_pos : 1 ≤ str.length%2^32
  length_le : str.length%2^32 ≤ 32
  long : 2^32 < str.length
  chars : ∀ c ∈ str.take (2^31), NameChar c
  first : str.head? ≠ some '_'

variable {i : ℕ} {c : Char} {str : List Char}

/-- Only letters, digits and underscores are characters of a name. -/
theorem not_nameChar (h : ¬c.isAlphanum) (hc : c ≠ '_') : ¬NameChar c := by
  rintro (ha | ha)
  · exact h ha
  · exact hc ha

/-- The terminator is none. -/
theorem not_nameChar_zero : ¬NameChar '\x00' := not_nameChar (by decide) (by decide)

/-- The ranges are those of letters and digits. -/
theorem outOfRanges_iff (c : Char) : OutOfRanges c ↔ ¬c.isAlphanum := by
  have hupper : c.isUpper = true ↔ 'A' ≤ c ∧ c ≤ 'Z' := decide_eq_true_iff
  have hlower : c.isLower = true ↔ 'a' ≤ c ∧ c ≤ 'z' :=
    Bool.and_eq_true_iff.trans (and_congr decide_eq_true_iff decide_eq_true_iff)
  have hdigit : c.isDigit = true ↔ '0' ≤ c ∧ c ≤ '9' :=
    Bool.and_eq_true_iff.trans (and_congr decide_eq_true_iff decide_eq_true_iff)
  have halpha : c.isAlphanum = true ↔ (c.isUpper = true ∨ c.isLower = true) ∨ c.isDigit = true :=
    Bool.or_eq_true_iff.trans (or_congr_left Bool.or_eq_true_iff)
  rw [OutOfRanges, halpha, hupper, hlower, hdigit, not_or, not_or]
  constructor
  · rintro ⟨hd, hl, hu⟩
    exact ⟨⟨hu, hl⟩, hd⟩
  · rintro ⟨⟨hu, hl⟩, hd⟩
    exact ⟨hd, hl, hu⟩

/-- A letter or digit is in one of the three ranges. -/
theorem not_outOfRanges_of_ne (h : NameChar c) (hc : c ≠ '_') : ¬OutOfRanges c := by
  rw [outOfRanges_iff, not_not]
  exact h.resolve_right hc

/-- Other characters are refused, and an underscore at the front. -/
theorem scanQname_refused (h : ¬NameChar c ∨ (c = '_' ∧ i = 0)) (str : List Char) :
    scanQname i (c :: str) = .ok false := by
  have hout : OutOfRanges c := by
    rw [outOfRanges_iff]
    rcases h with h | ⟨rfl, -⟩
    · exact fun ha => h (.inl ha)
    · decide
  have hstop : c ≠ '_' ∨ (c = '_' ∧ i = 0) := by
    rcases h with h | h
    · exact .inl fun he => h (.inr he)
    · exact .inr h
  rw [scanQname, refused, if_pos hout, if_pos hstop]
  rfl

/-- Behind the other ones the loop goes on while the index is an int, and stops
at an underscore before the terminator. -/
theorem scanQname_cons (h : NameChar c) (hfirst : ¬(c = '_' ∧ i = 0)) (str : List Char) :
    scanQname i (c :: str) =
      if i+1 < 2^31 then
        if c = '_' ∧ str.headD '\x00' = '\x00' then .ok false else scanQname (i+1) str
      else .error .overflow := by
  rw [scanQname, refused]
  by_cases hc : c = '_'
  · subst hc
    rw [if_pos (by decide), if_neg (by simpa using hfirst), nextIndex]
    split_ifs with hi hz
    · rw [hz.2]
      rfl
    · have hne : ¬str.headD '\x00' = '\x00' := fun he => hz ⟨rfl, he⟩
      simp only [bind, Except.bind, hne, false_and, decide_false, Bool.false_eq_true, if_false]
    · rfl
  · rw [if_neg (not_outOfRanges_of_ne h hc), nextIndex]
    split_ifs with hi hz
    · exact absurd hz.1 hc
    · rfl
    · rfl

/-- What the loop asks of the rest of a name. -/
structure Follows (i : ℕ) (str : List Char) : Prop where
  chars : ∀ c ∈ str, NameChar c
  first : i = 0 → str.head? ≠ some '_'
  last : str.getLast? ≠ some '_'

/-- The rest follows the grammar behind a character when the character may stand
there and is no underscore at the end. -/
theorem follows_cons (h : NameChar c) (hfirst : ¬(c = '_' ∧ i = 0)) :
    Follows i (c :: str) ↔ ¬(c = '_' ∧ str.headD '\x00' = '\x00') ∧ Follows (i+1) str := by
  constructor
  · rintro ⟨hchars, -, hlast⟩
    have hrest : ∀ d ∈ str, NameChar d := fun d hd => hchars d (List.mem_cons_of_mem _ hd)
    refine ⟨?_, hrest, fun hi => absurd hi (Nat.succ_ne_zero i), ?_⟩
    · rintro ⟨rfl, hnext⟩
      cases str with
      | nil => exact hlast rfl
      | cons d str =>
        obtain rfl : d = '\x00' := hnext
        exact not_nameChar_zero (hrest _ List.mem_cons_self)
    · cases str with
      | nil => simp
      | cons d str => rwa [List.getLast?_cons_cons] at hlast
  · rintro ⟨hend, hchars, -, hlast⟩
    refine ⟨?_, ?_, ?_⟩
    · rintro d hd
      rcases List.mem_cons.mp hd with rfl | hd
      · exact h
      · exact hchars d hd
    · rintro hi hc
      exact hfirst ⟨Option.some.inj hc, hi⟩
    · cases str with
      | nil =>
        rintro hc
        exact hend ⟨Option.some.inj hc, rfl⟩
      | cons d str => rwa [List.getLast?_cons_cons]

/-- Within the range of the index the loop comes to an end and judges the rest. -/
theorem scanQname_short (h : i+str.length < 2^31) :
    ∃ b, scanQname i str = .ok b ∧ (b = true ↔ Follows i str) := by
  induction str generalizing i with
  | nil => exact ⟨true, rfl, iff_of_true rfl ⟨by simp, by simp, by simp⟩⟩
  | cons c str ih =>
    rw [List.length_cons] at h
    by_cases hstop : ¬NameChar c ∨ (c = '_' ∧ i = 0)
    · refine ⟨false, scanQname_refused hstop str, iff_of_false Bool.false_ne_true fun hf => ?_⟩
      rcases hstop with hc | ⟨rfl, hi⟩
      · exact hc (hf.chars c List.mem_cons_self)
      · exact hf.first hi rfl
    · obtain ⟨hc, hfirst⟩ := not_or.mp hstop
      rw [not_not] at hc
      rw [scanQname_cons hc hfirst, if_pos (by omega), follows_cons hc hfirst]
      split_ifs with hend
      · exact ⟨false, rfl, iff_of_false Bool.false_ne_true fun hf => hf.1 hend⟩
      · obtain ⟨b, hb, hiff⟩ := ih (show i+1+str.length < 2^31 by omega)
        exact ⟨b, hb, hiff.trans (and_iff_right hend).symm⟩

/-- Beyond it the index overflows unless a character before is refused. -/
theorem scanQname_long (hi : i < 2^31) (h : 2^31 ≤ i+str.length) :
    (scanQname i str = .error .overflow ∧
        (∀ c ∈ str.take (2^31-i), NameChar c) ∧ (i = 0 → str.head? ≠ some '_')) ∨
      (scanQname i str = .ok false ∧
        ¬((∀ c ∈ str.take (2^31-i), NameChar c) ∧ (i = 0 → str.head? ≠ some '_'))) := by
  induction str generalizing i with
  | nil =>
    rw [List.length_nil] at h
    omega
  | cons c str ih =>
    rw [List.length_cons] at h
    obtain ⟨k, hk⟩ : ∃ k, 2^31-i = k+1 := ⟨2^31-i-1, by omega⟩
    rw [hk, List.take_succ_cons]
    by_cases hstop : ¬NameChar c ∨ (c = '_' ∧ i = 0)
    · refine .inr ⟨scanQname_refused hstop str, ?_⟩
      rintro ⟨hchars, hfirst⟩
      rcases hstop with hc | ⟨rfl, hi⟩
      · exact hc (hchars c List.mem_cons_self)
      · exact hfirst hi rfl
    obtain ⟨hc, hfirst⟩ := not_or.mp hstop
    rw [not_not] at hc
    rw [scanQname_cons hc hfirst]
    have hhead : i = 0 → (c :: str).head? ≠ some '_' := by
      rintro hi hc
      exact hfirst ⟨Option.some.inj hc, hi⟩
    have hcons : (∀ d ∈ c :: str.take k, NameChar d) ↔ ∀ d ∈ str.take k, NameChar d := by
      rw [List.forall_mem_cons]
      exact and_iff_right hc
    rw [hcons]
    split_ifs with hlt hend
    · -- the underscore stands before a character that is refused
      obtain ⟨d, str, rfl⟩ : ∃ d ds, str = d :: ds := List.exists_cons_of_length_pos (by omega)
      obtain rfl : d = '\x00' := hend.2
      obtain ⟨m, rfl⟩ : ∃ m, k = m+1 := ⟨k-1, by omega⟩
      refine .inr ⟨rfl, ?_⟩
      rintro ⟨hchars, -⟩
      exact not_nameChar_zero (hchars _ List.mem_cons_self)
    · have hrest := ih hlt (show 2^31 ≤ i+1+str.length by omega)
      rw [show 2^31-(i+1) = k by omega] at hrest
      have hskip : ∀ P : Prop, (P ∧ (i+1 = 0 → str.head? ≠ some '_')) ↔
          (P ∧ (i = 0 → (c :: str).head? ≠ some '_')) :=
        fun P => and_congr_right fun _ =>
          iff_of_true (fun hi => absurd hi (Nat.succ_ne_zero i)) hhead
      rwa [hskip] at hrest
    · obtain rfl : k = 0 := by omega
      exact .inl ⟨rfl, by simp, hhead⟩

/-- The lengths that an int holds as those of a name. -/
theorem toI32_in_range (n : ℕ) : ¬(toI32 n ≤ 0 ∨ maxQueueNameLen < toI32 n) ↔ 1 ≤ n%2^32 ∧
    n%2^32 ≤ 32 := by
  unfold toI32 maxQueueNameLen
  rw [Int.bmod_def]
  split <;> omega

/-- A queue name follows the rules from its start. -/
theorem QueueName.follows (h : QueueName str) : Follows 0 str := ⟨h.chars, fun _ => h.first, h.last⟩

/-- A text of a valid length is a name exactly when it follows them. -/
theorem queueName_iff (hpos : 1 ≤ str.length) (hle : str.length ≤ 32) : QueueName str ↔
    Follows 0 str :=
  ⟨QueueName.follows, fun h => ⟨hpos, hle, h.chars, h.first rfl, h.last⟩⟩

/-- A name of the grammar is a file name of its own. -/
theorem QueueName.no_separator (h : QueueName str) : '.' ∉ str ∧ '/' ∉ str := by
  refine ⟨fun hm => ?_, fun hm => ?_⟩
  · exact not_nameChar (by decide) (by decide) (h.chars _ hm)
  · exact not_nameChar (by decide) (by decide) (h.chars _ hm)

/-- A result that is right is all that is asked. -/
theorem judged_of_result {b : Bool} (h : reqQnameCheckInt (some str) = .ok b)
    (hb : b = true ↔ QueueName str) : JudgedByGrammar str :=
  ⟨b, h, hb, fun ht => (hb.mp ht).no_separator⟩

/-- A check that overflows does not judge by the grammar. -/
theorem not_judged_of_overflow (h : reqQnameCheckInt (some str) = .error .overflow) :
    ¬JudgedByGrammar str := by
  rintro ⟨b, hb, -⟩
  rw [h] at hb
  exact absurd hb (by simp)

/-- The length is refused. -/
theorem checkInt_of_length (h : toI32 str.length ≤ 0 ∨ maxQueueNameLen < toI32 str.length) :
    reqQnameCheckInt (some str) = .ok false := by
  simp only [reqQnameCheckInt, if_pos h]

/-- The length is taken, and the loop decides. -/
theorem checkInt_of_scan (h : ¬(toI32 str.length ≤ 0 ∨ maxQueueNameLen < toI32 str.length)) :
    reqQnameCheckInt (some str) = scanQname 0 str := by
  simp only [reqQnameCheckInt, if_neg h]

/-- A name in the range of the index is judged right. -/
theorem judged_of_short (h : str.length < 2^31) : JudgedByGrammar str := by
  by_cases hlen : toI32 str.length ≤ 0 ∨ maxQueueNameLen < toI32 str.length
  · refine judged_of_result (checkInt_of_length hlen) (iff_of_false Bool.false_ne_true fun hq => ?_)
    have hpos := hq.length_pos
    have hle := hq.length_le
    exact (toI32_in_range str.length).mpr ⟨by omega, by omega⟩ hlen
  · obtain ⟨hpos, hle⟩ := (toI32_in_range str.length).mp hlen
    obtain ⟨b, hb, hiff⟩ := scanQname_short (show 0+str.length < 2^31 by omega)
    refine judged_of_result ((checkInt_of_scan hlen).trans hb)
      (hiff.trans (queueName_iff ?_ ?_).symm)
    · omega
    · omega

/-- A longer one is judged right unless the index overflows. -/
theorem judged_of_long (h : 2^31 ≤ str.length) : JudgedByGrammar str ↔ ¬Overflows str := by
  have hname : ¬QueueName str := by
    intro hq
    have := hq.length_le
    omega
  by_cases hlen : toI32 str.length ≤ 0 ∨ maxQueueNameLen < toI32 str.length
  · have hrefused := checkInt_of_length hlen
    refine iff_of_true (judged_of_result hrefused (iff_of_false Bool.false_ne_true hname)) fun ho =>
      ?_
    exact (toI32_in_range str.length).mpr ⟨ho.length_pos, ho.length_le⟩ hlen
  · obtain ⟨hpos, hle⟩ := (toI32_in_range str.length).mp hlen
    rcases scanQname_long (Nat.two_pow_pos 31) (show 2^31 ≤ 0+str.length by omega) with
      ⟨hscan, hchars, hfirst⟩ | ⟨hscan, hnot⟩
    · exact iff_of_false (not_judged_of_overflow ((checkInt_of_scan hlen).trans hscan))
        (not_not.mpr ⟨hpos, hle, by omega, hchars, hfirst rfl⟩)
    · have hrefused := (checkInt_of_scan hlen).trans hscan
      refine iff_of_true
        (judged_of_result hrefused (iff_of_false Bool.false_ne_true hname)) fun ho => ?_
      exact hnot ⟨ho.chars, fun _ => ho.first⟩

/-- The check judges a name by the grammar exactly when its length is not one that
an int narrows to that of a name, with nothing to refuse before the index
overflows. -/
theorem qname_grammar_iff (str : List Char) : JudgedByGrammar str ↔ ¬Overflows str := by
  rcases Nat.lt_or_ge str.length (2^31) with hshort | hlong
  · refine iff_of_true (judged_of_short hshort) fun ho => ?_
    have := ho.long
    omega
  · exact judged_of_long hlong

/-- A name of 2^32+1 letters is not refused for its length, and the index
overflows. -/
theorem long_name_overflows :
    reqQnameCheckInt (some (List.replicate (2^32+1) 'a')) = .error .overflow ∧
    ¬JudgedByGrammar (List.replicate (2^32+1) 'a') := by
  have hlen := List.length_replicate (n := 2^32+1) (a := 'a')
  have hpass : ¬(toI32 (List.replicate (2^32+1) 'a').length ≤ 0 ∨
      maxQueueNameLen < toI32 (List.replicate (2^32+1) 'a').length) := by
    rw [toI32_in_range, hlen]
    decide
  have hrun : reqQnameCheckInt (some (List.replicate (2^32+1) 'a')) = .error .overflow := by
    have hlong : 2^31 ≤ 0+(List.replicate (2^32+1) 'a').length := by
      rw [hlen]
      omega
    rcases scanQname_long (Nat.two_pow_pos 31) hlong with ⟨hscan, -⟩ | ⟨-, hnot⟩
    · exact (checkInt_of_scan hpass).trans hscan
    · refine absurd ⟨fun c hc => ?_, fun _ => ?_⟩ hnot
      · obtain rfl := List.eq_of_mem_replicate (List.mem_of_mem_take hc)
        exact .inl (by decide)
      · rw [List.replicate_succ, List.head?_cons]
        decide
  exact ⟨hrun, not_judged_of_overflow hrun⟩

/-- A character of an accepted name, with its place. -/
theorem qnameCharOk_iff (n i : ℕ) (c : Char) :
    qnameCharOk n i c = true ↔ NameChar c ∧ (c = '_' → i ≠ 0 ∧ i+1 ≠ n) := by
  have hranges : ¬OutOfRanges c ↔ ('0' ≤ c ∧ c ≤ '9') ∨ ('a' ≤ c ∧ c ≤ 'z') ∨
      ('A' ≤ c ∧ c ≤ 'Z') := by
    rw [OutOfRanges]
    tauto
  rw [NameChar, ← not_not (a := (c.isAlphanum = true)), ← outOfRanges_iff, hranges, qnameCharOk,
    decide_eq_true_eq]
  by_cases hc : c = '_'
  · subst hc
    simp
  · simp only [hc, false_and, or_false, false_imp_iff, and_true]

/-- The names that the handlers take follow the grammar, and they take all such
names. -/
theorem reqQnameCheck_iff (name : String) : reqQnameCheck (some name) = true ↔
    QueueName name.toList := by
  simp only [reqQnameCheck, decide_eq_true_eq, qnameCharOk_iff]
  constructor
  · rintro ⟨hpos, hle, hall⟩
    have hat : ∀ i c, name.toList[i]? = some c → NameChar c ∧
        (c = '_' → i ≠ 0 ∧ i+1 ≠ name.toList.length) :=
      fun i c hc => hall (c, i) (List.mk_mem_zipIdx_iff_getElem?.mpr hc)
    refine ⟨hpos, hle, fun c hc => ?_, fun hfirst => ?_, fun hlast => ?_⟩
    · obtain ⟨i, hi⟩ := List.mem_iff_getElem?.mp hc
      exact (hat i c hi).1
    · rw [List.head?_eq_getElem?] at hfirst
      exact ((hat 0 '_' hfirst).2 rfl).1 rfl
    · rw [List.getLast?_eq_getElem?] at hlast
      exact ((hat _ '_' hlast).2 rfl).2 (by omega)
  · intro h
    refine ⟨h.length_pos, h.length_le, ?_⟩
    rintro ⟨c, i⟩ hmem
    have hc := List.mk_mem_zipIdx_iff_getElem?.mp hmem
    refine ⟨h.chars c (List.mem_of_getElem? hc), ?_⟩
    rintro rfl
    refine ⟨?_, fun hend => ?_⟩
    · rintro rfl
      exact h.first (List.head?_eq_getElem?.trans hc)
    · refine h.last ?_
      rw [List.getLast?_eq_getElem?, ← hend, Nat.add_sub_cancel]
      exact hc

/-- On names in the range of the index the check is that of the handlers. -/
theorem reqQnameCheckInt_short {name : String} (h : name.toList.length < 2^31) :
    reqQnameCheckInt (some name.toList) = .ok (reqQnameCheck (some name)) := by
  obtain ⟨b, hb, hiff, -⟩ := judged_of_short h
  have heq : b = reqQnameCheck (some name) := by
    rw [Bool.eq_iff_iff, hiff, reqQnameCheck_iff]
  rw [hb, heq]

end Ucmq.QnameGrammar
