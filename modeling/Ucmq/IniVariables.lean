import Mathlib.Algebra.Group.Nat.Defs
import Ucmq.IniMap
import Ucmq.MacroExpansion
import Ucmq.TextSearch

/-!
# Configuration variables

find_token, replace_in_line and replace_var of ini.c on a buffer of fixed length.
Every access to it is checked, and the loops run on fuel, since only the tokens
of a line bound them. The state keeps, beside what the source has, the number of
calls of find_token and the buffer with its length after each substitution.
-/

namespace Ucmq.IniVariables

open TextSearch MacroExpansion

/-- Calls of find_token for one value, less one. -/
abbrev maxTokens : ℤ := 1024

/-- Why a run of the model stops short. -/
inductive BufFault where
  | outOfBounds
  | outOfFuel
  deriving DecidableEq

/-- A key with its values. -/
structure IniEntry where
  /-- Key. -/
  key : List Char
  /-- Values, in the order of the file. -/
  values : List (List Char)
  deriving DecidableEq

/-- Values of a key. -/
def valuesOf (ini : List IniEntry) (key : List Char) : List (List Char) :=
  match ini.find? fun e => e.key = key with
  | none => []
  | some e => e.values

/-- Value of a key at an index, with the number of its values. -/
def findKey (ini : List IniEntry) (key : List Char) (idx : ℕ) : Option (List Char) × ℕ :=
  ((valuesOf ini key)[idx]?, (valuesOf ini key).length)

/-- The keys of a table with the values that were added. -/
def entriesOf (calls : List IniMap.Call) (table : List IniMap.IniKv) : List IniEntry :=
  table.map fun kv => ⟨kv.key, IniMap.added calls kv.key⟩

/-- They are found as in the records. -/
theorem findKey_entriesOf {calls : List IniMap.Call} {table : List IniMap.IniKv}
    (h : IniMap.Represents calls table) (key : List Char) (idx : ℕ) :
    IniMap.findKey table key idx =
      .ok ((findKey (entriesOf calls table) key idx).1.map .one,
        (findKey (entriesOf calls table) key idx).2) := by
  have hvalues : valuesOf (entriesOf calls table) key = IniMap.added calls key := by
    unfold valuesOf entriesOf
    rw [List.find?_map]
    cases hf :
      table.find?
        ((fun e : IniEntry => e.key = key) ∘ fun kv => ⟨kv.key, IniMap.added calls kv.key⟩) with
    | none =>
      have hnone : IniMap.findKey table key 0 = .ok (none, 0) := by
        rw [IniMap.findKey, show table.find? (fun kv => kv.key = key) = none from hf]
      cases ha : IniMap.added calls key with
      | nil => rfl
      | cons v vs =>
        have hfound := h.values key 0 v (by rw [ha]; rfl)
        rw [hnone] at hfound
        exact absurd hfound (by simp)
    | some kv =>
      obtain rfl : kv.key = key := by simpa using List.find?_some hf
      rfl
  rw [findKey, hvalues]
  cases hi : (IniMap.added calls key)[idx]? with
  | none => exact h.beyond key idx (List.getElem?_eq_none_iff.mp hi)
  | some v => exact h.values key idx v hi

/-- Value that a reference stands for: that of a key with one value. -/
def variableOf (ini : List IniEntry) (key : List Char) : Option (List Char) :=
  if (findKey ini key 0).2 = 1 then (findKey ini key 0).1 else none

/-- The marks of a variable. -/
def iniMarks : Marks Char :=
  ⟨'$', '(', ')', by decide, by decide, by decide⟩

/-- The C string at an offset. -/
def strAt (buf : List Char) (p : ℕ) : List Char := (buf.drop p).takeWhile (· ≠ '\x00')

/-- Read a byte. -/
def byteAt (buf : List Char) (p : ℕ) : Except BufFault Char :=
  match buf[p]? with
  | none => .error .outOfBounds
  | some c => .ok c

/-- Read a range. -/
def load (buf : List Char) (off len : ℤ) : Except BufFault (List Char) :=
  if 0 ≤ off ∧ 0 ≤ len ∧ off+len ≤ buf.length then .ok ((buf.drop off.toNat).take len.toNat)
  else .error .outOfBounds

/-- Write bytes. -/
def store (buf : List Char) (off : ℤ) (cs : List Char) : Except BufFault (List Char) :=
  if 0 ≤ off ∧ off+cs.length ≤ buf.length then
    .ok (buf.take off.toNat ++ cs ++ buf.drop (off.toNat+cs.length))
  else .error .outOfBounds

/-- State of the expansion of one value. -/
structure Tokens where
  /-- Buffer. -/
  buf : List Char
  /-- Length of the text in it. -/
  curLen : ℤ
  /-- Tokens left. -/
  tokens : ℤ
  /-- Calls of find_token made. -/
  calls : ℕ
  /-- Buffer and length after each substitution. -/
  subs : List (List Char × ℤ)

/-- The closing mark of a variable whose name begins at start+skip: replace the
variable by its value. -/
def substitute (ini : List IniEntry) (maxSize start skip p : ℕ) (startOffset : ℤ) (st : Tokens) :
    Except BufFault (Option ℕ × Tokens) := do
  let buf ← store st.buf p ['\x00']
  match variableOf ini (strAt buf (start+skip)) with
  | none => .ok (none, { st with buf := buf })
  | some findStr =>
    let oldLen : ℤ := (p : ℤ)-start+1
    let newLen : ℤ := findStr.length
    let moveLen := st.curLen-oldLen-startOffset
    let curLen := st.curLen+(newLen-oldLen)
    if (maxSize : ℤ) ≤ curLen then .ok (none, { st with buf := buf, curLen := curLen })
    else
      let rest ← load buf (p+1) moveLen
      let buf ← store buf (start+newLen) rest
      let buf ← store buf start findStr
      let buf ← store buf (start+newLen+moveLen) ['\x00']
      .ok (some start, { st with buf := buf, curLen := curLen, subs := st.subs ++ [(buf, curLen)] })

mutual

/-- Expand from an offset on: to the end of the text, or with a name to be
skipped to, to the substitution of that variable. NULL is none. -/
def findToken (ini : List IniEntry) (maxSize : ℕ) :
    ℕ → ℕ → ℕ → ℤ → Tokens → Except BufFault (Option ℕ × Tokens)
  | 0, _, _, _, _ => .error .outOfFuel
  | fuel+1, start, skip, startOffset, st =>
    let st := { st with tokens := st.tokens-1, calls := st.calls+1 }
    if st.tokens ≤ 0 then .ok (none, st)
    else scanToken ini maxSize fuel start skip startOffset (start+skip) st

/-- The loop of find_token. -/
def scanToken (ini : List IniEntry) (maxSize : ℕ) :
    ℕ → ℕ → ℕ → ℤ → ℕ → Tokens → Except BufFault (Option ℕ × Tokens)
  | 0, _, _, _, _, _ => .error .outOfFuel
  | fuel+1, start, skip, startOffset, p, st => do
    let c ← byteAt st.buf p
    if c = '\x00' then .ok (some p, st)
    else if c = '$' then
      let next ← byteAt st.buf (p+1)
      if next = '(' then
        let (r, st) ← findToken ini maxSize fuel p 2 (startOffset+((p : ℤ)-start)) st
        match r with
        | none => .ok (none, st)
        | some p => scanToken ini maxSize fuel start skip startOffset p st
      else scanToken ini maxSize fuel start skip startOffset (p+1) st
    else if c = ')' ∧ skip ≠ 0 then substitute ini maxSize start skip p startOffset st
    else scanToken ini maxSize fuel start skip startOffset (p+1) st

end

/-- Expand the variables of one value; NULL is none. The value is copied back
when it did not get longer, and replaced otherwise. -/
def replaceInLine (ini : List IniEntry) (fuel : ℕ) (str buf : List Char) :
    Except BufFault (Option (List Char) × Tokens) :=
  match find id "$(".toList str with
  | none => .ok (some str, ⟨buf, str.length, maxTokens, 0, []⟩)
  | some offset => do
    let text ← store buf 0 str
    let text ← store text str.length ['\x00']
    let (r, st) ← findToken ini buf.length fuel offset 0 offset ⟨text, str.length, maxTokens, 0, []⟩
    match r with
    | none => .ok (none, st)
    | some _ =>
      if st.curLen ≤ str.length then do
        let value ← load st.buf 0 st.curLen
        .ok (some value, st)
      else .ok (some (strAt st.buf 0), st)

/-- One value with what became of it. -/
structure Line where
  /-- Keys and values as they were then. -/
  ini : List IniEntry
  /-- Value. -/
  value : List Char
  /-- Its expansion, none for an error. -/
  result : Option (List Char)
  /-- State it ended in. -/
  last : Tokens

/-- Expand the values of one key, one after the other. -/
def replaceValues (fuel : ℕ) (before after : List IniEntry) (key : List Char) :
    List (List Char) → List (List Char) → List Char →
      Except BufFault (Option (List (List Char)) × List Line × List Char)
  | done, [], buf => .ok (some done, [], buf)
  | done, v :: todo, buf => do
    let ini := before ++ ⟨key, done ++ v :: todo⟩ :: after
    let (r, st) ← replaceInLine ini fuel v buf
    match r with
    | none => .ok (none, [⟨ini, v, none, st⟩], st.buf)
    | some v' => do
      let (r, lines, buf) ← replaceValues fuel before after key (done ++ [v']) todo st.buf
      .ok (r, ⟨ini, v, some v', st⟩ :: lines, buf)

/-- Expand all values; an error ends the run. -/
def replaceVar (fuel : ℕ) : List IniEntry → List IniEntry → List Char →
    Except BufFault (Option (List IniEntry) × List Line)
  | done, [], _ => .ok (some done, [])
  | done, e :: todo, buf => do
    let (r, lines, buf) ← replaceValues fuel done todo e.key [] e.values buf
    match r with
    | none => .ok (none, lines)
    | some values => do
      let (r, more) ← replaceVar fuel (done ++ [⟨e.key, values⟩]) todo buf
      .ok (r, lines ++ more)

end Ucmq.IniVariables
