import Mathlib.Algebra.Group.Nat.Defs
import Mathlib.Data.List.Induction
import Mathlib.Order.Nat
import Mathlib.Tactic.Common

/-!
# The keys and values of a configuration file

The records of ini.c keep one value in place and more in an array that doubles.
Count and size are 16 bits wide, and a size of zero says that there is no array:
after 32768 values of one key the doubled size is zero again. Up to there every
value is found under its key, in the order in which it was added.
-/

namespace Ucmq.IniMap

/-- A word of a union: a plain value, or a pointer to an array of such words. -/
inductive Word (α : Type) where
  | one (a : α)
  | table (cells : List (Option (Word α)))

/-- Accesses that the language leaves undefined. -/
inductive Fault where
  | notTable
  | outOfBounds

/-- Record of a key. -/
structure IniKv where
  /-- Key. -/
  key : List Char
  /-- Number of values, 16 bits. -/
  valueCount : ℕ
  /-- Size of the arrays, 16 bits; zero for none. -/
  valuesSize : ℕ
  /-- Value, or array of values. -/
  value : Word (List Char)
  /-- Line of the value, or array of lines. -/
  line : Word ℕ

variable {α : Type}

/-- The array that a word points to. -/
def Word.cells : Word α → Except Fault (List (Option (Word α)))
  | .one _ => .error .notTable
  | .table cells => .ok cells

/-- Write an element of an array. -/
def Word.set (w : Word α) (i : ℕ) (x : Word α) : Except Fault (Word α) := do
  let cells ← w.cells
  if i < cells.length then .ok (.table (cells.set i (some x))) else .error .outOfBounds

/-- An array of twice n elements with copies of the first n. -/
def Word.grow (w : Word α) (n : ℕ) : Except Fault (Word α) := do
  let cells ← w.cells
  if n ≤ cells.length then .ok (.table (cells.take n ++ List.replicate n none))
    else .error .outOfBounds

/-- An array of n elements that begins with the word. -/
def Word.start (w : Word α) (n : ℕ) : Word α := .table (some w :: List.replicate (n-1) none)

/-- A record without arrays gets arrays of eight elements. -/
def IniKv.toArrays (kv : IniKv) : IniKv :=
  if kv.valuesSize = 0 then
    { kv with valuesSize := 8, value := kv.value.start 8, line := kv.line.start 8 } else kv

/-- Full arrays are doubled. -/
def IniKv.double (kv : IniKv) : Except Fault IniKv :=
  if kv.valuesSize ≤ kv.valueCount then do
    let value ← kv.value.grow kv.valuesSize
    let line ← kv.line.grow kv.valuesSize
    .ok { kv with value := value, line := line, valuesSize := (kv.valuesSize <<< 1)%2^16 }
  else .ok kv

/-- Write behind the last value. -/
def IniKv.put (kv : IniKv) (value : List Char) (line : ℕ) : Except Fault IniKv := do
  let values ← kv.value.set kv.valueCount (.one value)
  let lines ← kv.line.set kv.valueCount (.one line)
  .ok { kv with value := values, line := lines, valueCount := (kv.valueCount+1)%2^16 }

/-- Add a value to a record. -/
def IniKv.add (kv : IniKv) (value : List Char) (line : ℕ) : Except Fault IniKv := do
  let kv ← kv.toArrays.double
  kv.put value line

/-- Add a value of a key. Allocations succeed. -/
def addKeyValue (ini : List IniKv) (key value : List Char) (line : ℕ) : Except Fault (List IniKv) :=
  match ini.find? fun kv => kv.key = key with
  | none => .ok (ini ++ [⟨key, 1, 0, .one value, .one line⟩])
  | some kv => do
    let kv' ← kv.add value line
    .ok (ini.map fun e => if e.key = key then kv' else e)

/-- Read an element of an array. -/
def Word.get (w : Word α) (i : ℕ) : Except Fault (Option (Word α)) := do
  let cells ← w.cells
  match cells[i]? with
  | none => .error .outOfBounds
  | some x => .ok x

/-- Value of a record at an index, NULL as none. -/
def IniKv.at (kv : IniKv) (idx : ℕ) : Except Fault (Option (Word (List Char))) :=
  if kv.valueCount ≤ idx then .ok none
  else if kv.valuesSize ≤ 1 then .ok (some kv.value)
  else kv.value.get idx

/-- Value of a key at an index, with the number of its values. -/
def findKey (ini : List IniKv) (key : List Char) (idx : ℕ) :
    Except Fault (Option (Word (List Char)) × ℕ) :=
  match ini.find? fun kv => kv.key = key with
  | none => .ok (none, 0)
  | some kv => do
    let w ← kv.at idx
    .ok (w, kv.valueCount)

/-- Arguments of a call of add_key_value. -/
structure Call where
  /-- Key. -/
  key : List Char
  /-- Value. -/
  value : List Char
  /-- Line of the file. -/
  line : ℕ

/-- Calls in a row, from an empty table. -/
def addAll (calls : List Call) : Except Fault (List IniKv) :=
  calls.foldlM (fun ini c => addKeyValue ini c.key c.value c.line) []

/-- The values that were added under a key, in order. -/
def added (calls : List Call) (key : List Char) : List (List Char) :=
  (calls.filter fun c => c.key = key).map Call.value

/-- The record has room for its values. -/
def Room (kv : IniKv) : Prop :=
  match kv.value with
  | .one _ => kv.valueCount ≤ 1
  | .table cells => kv.valueCount ≤ cells.length

/-- The table holds what was added: there is room for it, and every key has its
values in order and their number, and nothing beyond. -/
structure Represents (calls : List Call) (ini : List IniKv) : Prop where
  room : ∀ kv ∈ ini, Room kv
  values : ∀ key i v, (added calls key)[i]? = some v →
    findKey ini key i = .ok (some (.one v), (added calls key).length)
  beyond : ∀ key i, (added calls key).length ≤ i →
    findKey ini key i = .ok (none, (added calls key).length)

/-- An array of n elements that begins with these values. -/
def valueTable (vs : List (List Char)) (n : ℕ) : Word (List Char) :=
  .table (vs.map (fun v => some (.one v)) ++ List.replicate (n-vs.length) none)

/-- How a record keeps these values. -/
inductive Stored : List (List Char) → IniKv → Prop
  | inPlace (key v : List Char) (l : ℕ) : Stored [v] ⟨key, 1, 0, .one v, .one l⟩
  | arrays (key : List Char) {vs : List (List Char)} {n : ℕ}
      {lines : List (Option (Word ℕ))} (hn : n ≤ 12)
      (htwo : 2 ≤ vs.length) (hroom : vs.length ≤ 8*2^n) (hlines : lines.length = 8*2^n) :
      Stored vs ⟨key, vs.length, 8*2^n, valueTable vs (8*2^n), .table lines⟩
  | wrapped (key : List Char) {vs : List (List Char)} {cells : List (Option (Word (List Char)))}
      {lines : List (Option (Word ℕ))} (hlen : vs.length = 2^15+1)
      (hroom : vs.length ≤ cells.length) :
      Stored vs ⟨key, vs.length, 0, .table cells, .table lines⟩

variable {kv : IniKv} {vs : List (List Char)} {v : List Char} {l : ℕ}

/-- A cell of a table is set. -/
theorem Word.set_table {cells : List (Option (Word α))} {i : ℕ} (h : i < cells.length)
    (x : Word α) :
    (Word.table cells).set i x = .ok (.table (cells.set i (some x))) := if_pos h

/-- A table grows by empty cells. -/
theorem Word.grow_table {cells : List (Option (Word α))} {n : ℕ} (h : n ≤ cells.length) :
    (Word.table cells).grow n = .ok (.table (cells.take n ++ List.replicate n none)) := if_pos h

/-- The next value is written behind the others. -/
theorem valueTable_set {n : ℕ} (h : vs.length < n) (v : List Char) :
    (valueTable vs n).set vs.length (.one v) = .ok (valueTable (vs ++ [v]) n) := by
  have hcells :
      vs.length <
        (vs.map (fun v => some (Word.one v)) ++ List.replicate (n-vs.length) none).length := by
    rw [List.length_append, List.length_map, List.length_replicate]
    omega
  have hrest : List.replicate (n-vs.length) (none : Option (Word (List Char))) =
      none :: List.replicate (n-(vs.length+1)) none := by
    rw [← List.replicate_succ]
    congr 1
    omega
  have hset :
    (vs.map (fun v => some (Word.one v)) ++ List.replicate (n-vs.length) none).set vs.length
      (some (.one v)) = (vs ++ [v]).map (fun v => some (Word.one v)) ++
        List.replicate (n-(vs.length+1)) none := by
    rw [hrest, List.set_append_right _ _ (by rw [List.length_map]), List.length_map, Nat.sub_self,
      List.set_cons_zero, List.map_append, List.append_assoc]
    rfl
  rw [valueTable, Word.set_table hcells, hset, valueTable, List.length_append]
  rfl

/-- A full array is copied to one of twice its size. -/
theorem valueTable_grow {n : ℕ} (h : vs.length = n) :
    (valueTable vs n).grow n = .ok (valueTable vs (2*n)) := by
  have hcells : vs.map (fun v => some (Word.one v)) ++ List.replicate (n-vs.length) none =
      vs.map fun v => some (Word.one v) := by
    rw [h, Nat.sub_self, List.replicate_zero, List.append_nil]
  have hroom : 2*n-vs.length = n := by omega
  rw [valueTable, hcells, Word.grow_table (by rw [List.length_map, h]),
    List.take_of_length_le (by rw [List.length_map, h]), valueTable, hroom]

/-- There is room behind the values for one more. -/
theorem put_arrays (key : List Char) {n : ℕ} {lines : List (Option (Word ℕ))} (hn : n ≤ 12)
    (hone : 1 ≤ vs.length) (hroom : vs.length < 8*2^n) (hlines : lines.length = 8*2^n)
    (v : List Char) (l : ℕ) :
    ∃ kv', IniKv.put ⟨key, vs.length, 8*2^n, valueTable vs (8*2^n), .table lines⟩ v l = .ok kv' ∧
      kv'.key = key ∧
      Stored (vs ++ [v]) kv' := by
  have hpow : 2^n ≤ 2^12 := Nat.pow_le_pow_right (by decide) hn
  have hcount : (vs.length+1)%2^16 = (vs ++ [v]).length := by
    rw [List.length_append, List.length_singleton]
    omega
  have hput : IniKv.put ⟨key, vs.length, 8*2^n, valueTable vs (8*2^n), .table lines⟩ v l =
      .ok ⟨key, (vs ++ [v]).length, 8*2^n, valueTable (vs ++ [v]) (8*2^n),
        .table (lines.set vs.length (some (.one l)))⟩ := by
    simp only [IniKv.put, valueTable_set hroom, Word.set_table (hlines ▸ hroom), bind,
      Except.bind, hcount]
  refine ⟨_, hput, rfl, .arrays key hn ?_ ?_ ?_⟩
  · rw [List.length_append, List.length_singleton]
    omega
  · rw [List.length_append, List.length_singleton]
    omega
  · rw [List.length_set, hlines]

/-- So there is in the arrays that are doubled for the last time, to a size of zero. -/
theorem put_wrapped (key : List Char) {n : ℕ} {lines : List (Option (Word ℕ))}
    (hlen : vs.length = 2^15) (hn : 2^15 < n) (hlines : lines.length = n) (v : List Char) (l : ℕ) :
    ∃ kv', IniKv.put ⟨key, vs.length, 0, valueTable vs n, .table lines⟩ v l = .ok kv' ∧
      kv'.key = key ∧
      Stored (vs ++ [v]) kv' := by
  have hcount : (vs.length+1)%2^16 = (vs ++ [v]).length := by
    rw [List.length_append, List.length_singleton]
    omega
  have hput : IniKv.put ⟨key, vs.length, 0, valueTable vs n, .table lines⟩ v l =
      .ok ⟨key, (vs ++ [v]).length, 0, valueTable (vs ++ [v]) n,
        .table (lines.set vs.length (some (.one l)))⟩ := by
    have hlt : vs.length < lines.length := by omega
    simp only [IniKv.put, valueTable_set (show vs.length < n by omega), Word.set_table hlt, bind,
      Except.bind, hcount]
  refine ⟨_, hput, rfl, .wrapped key ?_ ?_⟩
  · rw [List.length_append, List.length_singleton]
    omega
  · simp only [List.length_append, List.length_singleton, List.length_map, List.length_replicate]
    omega

/-- Values in arrays are kept with one more, doubling them when they are full. -/
theorem add_arrays (key : List Char) {n : ℕ} {lines : List (Option (Word ℕ))} (hn : n ≤ 12)
    (htwo : 2 ≤ vs.length) (hroom : vs.length ≤ 8*2^n) (hlines : lines.length = 8*2^n)
    (v : List Char) (l : ℕ) :
    ∃ kv', IniKv.add ⟨key, vs.length, 8*2^n, valueTable vs (8*2^n), .table lines⟩ v l = .ok kv' ∧
      kv'.key = key ∧
      Stored (vs ++ [v]) kv' := by
  have hpow : 2^n ≤ 2^12 := Nat.pow_le_pow_right (by decide) hn
  have hne : 8*2^n ≠ 0 := by omega
  rw [IniKv.add, IniKv.toArrays, if_neg hne, IniKv.double]
  rcases hroom.lt_or_eq with hlt | hfull
  · rw [if_neg (not_le.mpr hlt)]
    exact put_arrays key hn (by omega) hlt hlines v l
  · have hdouble : 2*(8*2^n) = 8*2^(n+1) := by omega
    have hlines' : (lines.take (8*2^n) ++ List.replicate (8*2^n) none).length = 8*2^(n+1) := by
      rw [List.length_append, List.length_take, List.length_replicate]
      omega
    have hshift : (8*2^n) <<< 1 = 8*2^(n+1) := by
      rw [Nat.shiftLeft_eq]
      omega
    simp only [if_pos hfull.ge, valueTable_grow hfull, Word.grow_table hlines.ge, bind, Except.bind,
      hshift, hdouble]
    rcases hn.lt_or_eq with hlt | rfl
    · have hpow' : 2^(n+1) ≤ 2^12 := Nat.pow_le_pow_right (by decide) hlt
      rw [Nat.mod_eq_of_lt (by omega)]
      exact put_arrays key hlt (by omega) (by omega) hlines' v l
    · exact put_wrapped key hfull (by decide) hlines' v l

/-- A size of zero brings arrays of eight elements, whose double is too small. -/
theorem add_wrapped (key : List Char) (cells : List (Option (Word (List Char))))
    (lines : List (Option (Word ℕ))) {n : ℕ} (hn : 16 ≤ n) (v : List Char) (l : ℕ) :
    IniKv.add ⟨key, n, 0, .table cells, .table lines⟩ v l = .error .outOfBounds := by
  have hdouble : IniKv.double ⟨key, n, 8, (Word.table cells).start 8, (Word.table lines).start 8⟩ =
      .ok ⟨key, n, 16,
        .table ((some (Word.table cells) :: List.replicate 7 none).take 8 ++ List.replicate 8 none),
        .table ((some (Word.table lines) :: List.replicate 7 none).take 8 ++
          List.replicate 8 none)⟩ := by
    rw [IniKv.double, if_pos (show 8 ≤ n by omega)]
    rfl
  have hput : ∀ kv' : IniKv, kv'.value.set kv'.valueCount (.one v) = .error .outOfBounds →
      kv'.put v l = .error .outOfBounds := by
    intro kv' h
    rw [IniKv.put, h]
    rfl
  rw [IniKv.add, IniKv.toArrays, if_pos rfl, hdouble]
  refine hput _ (if_neg ?_)
  simp only [List.length_append, List.length_take, List.length_cons, List.length_replicate]
  omega

/-- Up to 32768 values one more is kept, and then no more. -/
theorem Stored.add (h : Stored vs kv) (v : List Char) (l : ℕ) :
    (vs.length ≤ 2^15 ∧ ∃ kv', kv.add v l = .ok kv' ∧ kv'.key = kv.key ∧ Stored (vs ++ [v]) kv') ∨
      (vs.length = 2^15+1 ∧ ∃ e, kv.add v l = .error e) := by
  cases h with
  | inPlace key w l₀ =>
    have hone : [w].length ≤ 2^15 := by
      rw [List.length_singleton]
      decide
    have hadd : IniKv.add ⟨key, 1, 0, .one w, .one l₀⟩ v l = IniKv.put ⟨key, [w].length, 8*2^0,
        valueTable [w] (8*2^0), .table (some (.one l₀) :: List.replicate 7 none)⟩ v l := rfl
    refine .inl ⟨hone, ?_⟩
    rw [hadd]
    exact put_arrays key (by decide) le_rfl (by rw [List.length_singleton]; decide) rfl v l
  | @arrays key _ n lines hn htwo hroom hlines =>
    have hpow : 2^n ≤ 2^12 := Nat.pow_le_pow_right (by decide) hn
    exact .inl ⟨by omega, add_arrays key hn htwo hroom hlines v l⟩
  | @wrapped key _ cells lines hlen hroom =>
    exact .inr ⟨hlen, _, add_wrapped key cells lines (by omega) v l⟩

section Run

variable {calls : List Call} {ini : List IniKv} {key : List Char}

/-- Values of a key after one more call. -/
theorem added_concat (calls : List Call) (c : Call) (key : List Char) :
    added (calls ++ [c]) key = if c.key = key then added calls key ++
      [c.value] else added calls key := by
  unfold added
  rw [List.filter_append, List.map_append]
  by_cases h : c.key = key
  · rw [if_pos h, List.filter_cons_of_pos (by simpa using h)]
    rfl
  · rw [if_neg h, List.filter_cons_of_neg (by simpa using h)]
    exact List.append_nil _

/-- Every record keeps what was added under its key, and there is one for every
key with a value. -/
structure Keeps (calls : List Call) (ini : List IniKv) : Prop where
  stored : ∀ kv ∈ ini, Stored (added calls kv.key) kv
  found : ∀ key, added calls key ≠ [] → ∃ kv ∈ ini, kv.key = key

/-- No entry has a key that is not found. -/
theorem find_key_none (h : ini.find? (fun kv => kv.key = key) = none) :
    ∀ kv ∈ ini, kv.key ≠ key := by
  simpa using h

/-- An entry that is found has the key. -/
theorem find_key_some (h : ini.find? (fun kv => kv.key = key) = some kv) : kv ∈ ini ∧
    kv.key = key :=
  ⟨List.mem_of_find?_eq_some h, by simpa using List.find?_some h⟩

/-- One more call keeps the records unless it is one too many for its key. -/
theorem Keeps.step (h : Keeps calls ini) (c : Call) :
    (∃ ini', addKeyValue ini c.key c.value c.line = .ok ini' ∧ Keeps (calls ++ [c]) ini') ∨
      (∃ e, addKeyValue ini c.key c.value c.line = .error e) ∧
      (added calls c.key).length = 2^15+1 := by
  unfold addKeyValue
  cases hf : ini.find? (fun kv => kv.key = c.key) with
  | none =>
    have hnew := find_key_none hf
    have hnil : added calls c.key = [] := by
      by_contra hne
      obtain ⟨kv, hkv, hkey⟩ := h.found _ hne
      exact hnew kv hkv hkey
    refine .inl ⟨_, rfl, fun kv hkv => ?_, fun key hne => ?_⟩
    · rw [added_concat]
      rcases List.mem_append.mp hkv with hold | hkv
      · rw [if_neg (hnew kv hold).symm]
        exact h.stored kv hold
      · obtain rfl := List.mem_singleton.mp hkv
        rw [if_pos rfl, hnil]
        exact .inPlace c.key c.value c.line
    · by_cases hkey : c.key = key
      · exact ⟨_, List.mem_append_right _ List.mem_cons_self, hkey⟩
      · rw [added_concat, if_neg hkey] at hne
        obtain ⟨kv, hkv, hk⟩ := h.found key hne
        exact ⟨kv, List.mem_append_left _ hkv, hk⟩
  | some kv =>
    obtain ⟨hkv, hkey⟩ := find_key_some hf
    have hstored := h.stored kv hkv
    rw [hkey] at hstored
    rcases hstored.add c.value c.line with ⟨-, kv', hadd, hkey', hnew⟩ | ⟨hlen, e, hadd⟩
    · refine .inl ⟨ini.map fun e => if e.key = c.key then kv' else e, ?_, fun e he => ?_,
        fun key hne => ?_⟩
      · simp only [hadd, bind, Except.bind]
      · obtain ⟨e₀, he₀, rfl⟩ := List.mem_map.mp he
        rw [added_concat]
        by_cases hk : e₀.key = c.key
        · rw [if_pos hk, hkey', hkey, if_pos rfl]
          exact hnew
        · rw [if_neg hk, if_neg (Ne.symm hk)]
          exact h.stored e₀ he₀
      · have hold : ∃ e₀ ∈ ini, e₀.key = key := by
          by_cases hk : c.key = key
          · exact ⟨kv, hkv, hkey.trans hk⟩
          · rw [added_concat, if_neg hk] at hne
            exact h.found key hne
        obtain ⟨e₀, he₀, hk⟩ := hold
        refine ⟨_, List.mem_map_of_mem he₀, ?_⟩
        split_ifs with hc
        · exact (hkey'.trans hkey).trans (hc.symm.trans hk)
        · exact hk
    · refine .inr ⟨⟨e, ?_⟩, hlen⟩
      simp only [hadd, bind, Except.bind]

/-- The last call comes after the others. -/
theorem addAll_concat (calls : List Call) (c : Call) :
    addAll (calls ++ [c]) =
      (addAll calls).bind fun ini => addKeyValue ini c.key c.value c.line := by
  unfold addAll
  simp only [List.foldlM_append, List.foldlM_cons, List.foldlM_nil, bind_pure]
  rfl

/-- Calls in a row keep the records, or some key got too many values. -/
theorem addAll_cases (calls : List Call) :
    (∃ ini, addAll calls = .ok ini ∧ Keeps calls ini) ∨
      (∃ e, addAll calls = .error e) ∧ ∃ key, 2^15+1 < (added calls key).length := by
  induction calls using List.reverseRecOn with
  | nil => exact .inl ⟨[], rfl, by simp, fun key hne => absurd rfl hne⟩
  | append_singleton calls c ih =>
    have hrun := addAll_concat calls c
    rcases ih with ⟨ini, hini, hkeeps⟩ | ⟨⟨e, he⟩, key, hkey⟩
    · rw [hrun, hini]
      rcases hkeeps.step c with hok | ⟨herr, hlen⟩
      · exact .inl hok
      · refine .inr ⟨herr, c.key, ?_⟩
        rw [added_concat, if_pos rfl, List.length_append, List.length_singleton]
        omega
    · refine .inr ⟨⟨e, by rw [hrun, he]; rfl⟩, key, hkey.trans_le ?_⟩
      rw [added_concat]
      split_ifs
      · rw [List.length_append]
        omega
      · exact le_rfl

/-- As many values are counted as are stored. -/
theorem Stored.count (h : Stored vs kv) : kv.valueCount = vs.length := by
  cases h <;> rfl

/-- Up to 32768 values each is found at its index. -/
theorem Stored.at (h : Stored vs kv) (hlen : vs.length ≤ 2^15) {i : ℕ} {v : List Char}
    (hi : vs[i]? = some v) :
    kv.at i = .ok (some (.one v)) := by
  obtain ⟨hlt, hv⟩ := List.getElem?_eq_some_iff.mp hi
  cases h with
  | inPlace key w l =>
    obtain rfl : i = 0 := by simpa using hlt
    rw [← hv]
    rfl
  | @arrays key _ n lines hn htwo hroom hlines =>
    have hpow : 0 < 2^n := Nat.two_pow_pos n
    have hcell :
      (vs.map (fun v => some (Word.one v)) ++ List.replicate (8*2^n-vs.length) none)[i]? =
        some (some (.one v)) := by
      rw [List.getElem?_append_left (by rwa [List.length_map]), List.getElem?_map, hi]
      rfl
    rw [IniKv.at, if_neg (not_le.mpr hlt), if_neg (show ¬8*2^n ≤ 1 by omega)]
    simp only [valueTable, Word.get, Word.cells, bind, Except.bind, hcell]
  | wrapped key hmany hroom => omega

/-- One value more and the array itself is returned as a value. -/
theorem Stored.at_wrapped (h : Stored vs kv) (hlen : 2^15 < vs.length) :
    ∃ cells, kv.at 0 = .ok (some (.table cells)) := by
  cases h with
  | inPlace key w l =>
    rw [List.length_singleton] at hlen
    omega
  | @arrays key _ n lines hn htwo hroom hlines =>
    have hpow : 2^n ≤ 2^12 := Nat.pow_le_pow_right (by decide) hn
    omega
  | @wrapped key _ cells lines hmany hroom =>
    refine ⟨cells, ?_⟩
    rw [IniKv.at, if_neg (show ¬vs.length ≤ 0 by omega), if_pos (show 0 ≤ 1 by decide)]

/-- There is room for them. -/
theorem Stored.room (h : Stored vs kv) : Room kv := by
  cases h with
  | inPlace => exact le_rfl
  | arrays key hn htwo hroom hlines =>
    simp only [Room, valueTable, List.length_append, List.length_map, List.length_replicate]
    omega
  | wrapped key hlen hroom => exact hroom

/-- The record that is found keeps what was added under the key. -/
theorem Keeps.find (h : Keeps calls ini) (key : List Char) :
    (ini.find? (fun kv => kv.key = key) = none ∧ added calls key = []) ∨
      ∃ kv, ini.find? (fun kv => kv.key = key) = some kv ∧ Stored (added calls key) kv := by
  cases hf : ini.find? (fun kv => kv.key = key) with
  | none =>
    refine .inl ⟨rfl, ?_⟩
    by_contra hne
    obtain ⟨kv, hkv, hkey⟩ := h.found key hne
    exact find_key_none hf kv hkv hkey
  | some kv =>
    obtain ⟨hkv, hkey⟩ := find_key_some hf
    refine .inr ⟨kv, rfl, ?_⟩
    rw [← hkey]
    exact h.stored kv hkv

/-- The key of a record stays. -/
theorem IniKv.add_key {kv' : IniKv} (h : kv.add v l = .ok kv') : kv'.key = kv.key := by
  have hdouble : ∀ {e e' : IniKv}, e.double = .ok e' → e'.key = e.key := by
    intro e e' he
    unfold IniKv.double at he
    split_ifs at he
    · cases hvalue : e.value.grow e.valuesSize with
      | error => simp [hvalue, bind, Except.bind] at he
      | ok value =>
        cases hline : e.line.grow e.valuesSize with
        | error => simp [hvalue, hline, bind, Except.bind] at he
        | ok line =>
          simp only [hvalue, hline, bind, Except.bind, Except.ok.injEq] at he
          rw [← he]
    · rw [Except.ok.inj he]
  have hput : ∀ {e e' : IniKv}, e.put v l = .ok e' → e'.key = e.key := by
    intro e e' he
    unfold IniKv.put at he
    cases hvalue : e.value.set e.valueCount (.one v) with
    | error => simp [hvalue, bind, Except.bind] at he
    | ok value =>
      cases hline : e.line.set e.valueCount (.one l) with
      | error => simp [hvalue, hline, bind, Except.bind] at he
      | ok line =>
        simp only [hvalue, hline, bind, Except.bind, Except.ok.injEq] at he
        rw [← he]
  have hfirst : kv.toArrays.key = kv.key := by
    unfold IniKv.toArrays
    split_ifs <;> rfl
  unfold IniKv.add at h
  cases hd : kv.toArrays.double with
  | error => simp [hd, bind, Except.bind] at h
  | ok e =>
    rw [hd] at h
    exact (hput h).trans ((hdouble hd).trans hfirst)

/-- A key has one record. -/
theorem nodup_addKeyValue {ini' : List IniKv} (hn : (ini.map IniKv.key).Nodup)
    (h : addKeyValue ini key v l = .ok ini') : (ini'.map IniKv.key).Nodup := by
  unfold addKeyValue at h
  cases hf : ini.find? (fun kv => kv.key = key) with
  | none =>
    rw [hf] at h
    rw [← Except.ok.inj h, List.map_append, List.map_singleton]
    refine List.nodup_append.mpr ⟨hn, by simp, ?_⟩
    rintro _ hmem _ hkey rfl
    obtain ⟨kv, hkv, he⟩ := List.mem_map.mp hmem
    exact find_key_none hf kv hkv (he.trans (List.mem_singleton.mp hkey))
  | some kv =>
    rw [hf] at h
    obtain ⟨-, hkey⟩ := find_key_some hf
    cases hadd : kv.add v l with
    | error => simp [hadd, bind, Except.bind] at h
    | ok kv' =>
      simp only [hadd, bind, Except.bind, Except.ok.injEq] at h
      have hkeys :
          (ini.map fun e => if e.key = key then kv' else e).map IniKv.key = ini.map IniKv.key := by
        rw [List.map_map]
        refine List.map_congr_left fun e _ => ?_
        rw [Function.comp_apply]
        split_ifs with he
        · exact (IniKv.add_key hadd).trans (hkey.trans he.symm)
        · rfl
      rwa [← h, hkeys]

/-- Every key has one entry. -/
theorem nodup_addAll (h : addAll calls = .ok ini) : (ini.map IniKv.key).Nodup := by
  induction calls using List.reverseRecOn generalizing ini with
  | nil =>
    obtain rfl : [] = ini := Except.ok.inj h
    exact List.nodup_nil
  | append_singleton calls c ih =>
    rw [addAll_concat] at h
    cases hini : addAll calls with
    | error =>
      rw [hini] at h
      exact absurd h (by simp [Except.bind])
    | ok ini₀ =>
      rw [hini] at h
      exact nodup_addKeyValue (ih hini) h

/-- While no key has more than 32768 values the table holds what was added. -/
theorem Keeps.represents (h : Keeps calls ini) (hlen : ∀ key, (added calls key).length ≤ 2^15) :
    Represents calls ini := by
  refine ⟨fun kv hkv => (h.stored kv hkv).room, fun key i v hi => ?_, fun key i hi => ?_⟩
  · rcases h.find key with ⟨-, hnil⟩ | ⟨kv, hf, hkv⟩
    · rw [hnil] at hi
      exact absurd hi (by simp)
    · simp only [findKey, hf, hkv.at (hlen key) hi, hkv.count, bind, Except.bind]
  · rcases h.find key with ⟨hf, hnil⟩ | ⟨kv, hf, hkv⟩
    · rw [findKey, hf, hnil]
      rfl
    · have hout : kv.at i = .ok none := if_pos (hkv.count.trans_le hi)
      simp only [findKey, hf, hout, hkv.count, bind, Except.bind]

/-- A key with more values than that is not found with its first one. -/
theorem Keeps.not_represents (h : Keeps calls ini) (hlen : 2^15 < (added calls key).length) :
    ¬Represents calls ini := by
  intro hrep
  rcases h.find key with ⟨-, hnil⟩ | ⟨kv, hf, hkv⟩
  · rw [hnil] at hlen
    exact absurd hlen (by decide)
  · obtain ⟨v, hv⟩ : ∃ v, (added calls key)[0]? = some v := ⟨_, List.getElem?_eq_getElem (by omega)⟩
    obtain ⟨cells, hat⟩ := hkv.at_wrapped hlen
    have hfind := hrep.values key 0 v hv
    simp only [findKey, hf, hat, bind, Except.bind, Except.ok.injEq, Prod.mk.injEq,
      Option.some.injEq] at hfind
    exact absurd hfind.1 (by simp)

/-- After any calls of add_key_value the table holds what was added exactly when
no key was given more than 32768 values. -/
theorem represents_iff (calls : List Call) :
    (∃ ini, addAll calls = .ok ini ∧ Represents calls ini) ↔
    ∀ key, (added calls key).length ≤ 2^15 := by
  constructor
  · rintro ⟨ini, hini, hrep⟩ key
    by_contra hlen
    rcases addAll_cases calls with ⟨ini', hini', hkeeps⟩ | ⟨⟨e, he⟩, -⟩
    · obtain rfl : ini = ini' := Except.ok.inj (hini.symm.trans hini')
      exact hkeeps.not_represents (not_le.mp hlen) hrep
    · rw [hini] at he
      exact absurd he (by simp)
  · intro hlen
    rcases addAll_cases calls with ⟨ini, hini, hkeeps⟩ | ⟨-, key, hkey⟩
    · exact ⟨ini, hini, hkeeps.represents hlen⟩
    · exact absurd (hlen key) (by omega)

/-- Calls that give one key as many values. -/
def manyValues (n : ℕ) : List Call := List.replicate n ⟨"k".toList, "v".toList, 1⟩

/-- Many values of one key. -/
theorem added_manyValues (n : ℕ) : (added (manyValues n) "k".toList).length = n := by
  rw [added, manyValues, List.filter_replicate, if_pos (by simp), List.map_replicate,
    List.length_replicate]

/-- With the 32769th value of a key what is found is the array of its values. -/
theorem value_32769_lost : ∃ ini, addAll (manyValues 32769) = .ok ini ∧
    (∃ cells, findKey ini "k".toList 0 = .ok (some (.table cells), 32769)) ∧
    ¬∃ ini, addAll (manyValues 32769) = .ok ini ∧ Represents (manyValues 32769) ini := by
  have hlen := added_manyValues 32769
  have hkeeps : ∃ ini, addAll (manyValues 32769) = .ok ini ∧ Keeps (manyValues 32769) ini := by
    refine (addAll_cases _).resolve_right ?_
    rintro ⟨-, key, hkey⟩
    have hle : (added (manyValues 32769) key).length ≤ (manyValues 32769).length := by
      rw [added, List.length_map]
      exact List.length_filter_le _ _
    rw [manyValues, List.length_replicate] at hle
    rw [manyValues] at hkey
    omega
  obtain ⟨ini, hini, hkeeps⟩ := hkeeps
  refine ⟨ini, hini, ?_, ?_⟩
  · rcases hkeeps.find "k".toList with ⟨-, hnil⟩ | ⟨kv, hf, hkv⟩
    · rw [hnil] at hlen
      exact absurd hlen (by simp)
    · obtain ⟨cells, hat⟩ := hkv.at_wrapped (by omega)
      refine ⟨cells, ?_⟩
      simp only [findKey, hf, hat, hkv.count, hlen, bind, Except.bind]
  · rintro ⟨ini', hini', hrep⟩
    obtain rfl : ini = ini' := Except.ok.inj (hini.symm.trans hini')
    exact @Keeps.not_represents _ _ "k".toList hkeeps (by omega) hrep

end Run

end Ucmq.IniMap
