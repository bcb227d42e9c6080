import Ucmq.HandleFile
import Mathlib.Order.Lattice.Nat

/-!
# Choosing the files of a queue in any listing order

The read and the write file are a running minimum and maximum of the data
files, whatever the order of the listing. The position log is one only when
its bare name is also found in the working directory: a log that is not found
there is kept when it is listed first and passed over when it is not. So the
order matters exactly when there are several logs and the last of them is not
found in the working directory.
-/

namespace Ucmq.ListingOrder

open StoreConfig StoreState StoreFile HandleFile

variable {sys : Sys} {files l : List Fname}

/-- Names chosen from a listing, before the indices are compared. -/
def findNames (sys : Sys) (listing : List Fname) : FindState :=
  listing.foldl (findStep sys) ⟨none, none, none⟩

/-- Indices of the data files among the files. -/
def dbIds (files : List Fname) : Set ℕ := {i | .db i ∈ files}

/-- Indices of the position logs among the files. -/
def rtagIds (files : List Fname) : Set ℕ := {i | .rtag i ∈ files}

/-- The indices fit the twelve digits of a name. -/
def Indexed (files : List Fname) : Prop := ∀ i, .db i ∈ files ∨ .rtag i ∈ files → i < 10^12

/-- Every order of the files gives the same names and the same result, and a
queue is loaded from the first and the last data file and the last position
log. -/
def OrderFree (sys : Sys) (files : List Fname) : Prop :=
  (∀ l₁ l₂, l₁.Perm files → l₂.Perm files →
      findNames sys l₁ = findNames sys l₂ ∧ findHandleFile sys l₁ = findHandleFile sys l₂) ∧
    ∀ l file, l.Perm files → findHandleFile sys l = some file →
      ∃ r w t, file = ⟨.rtag t, .db r, .db w⟩ ∧ IsLeast (dbIds files) r ∧
        IsGreatest (dbIds files) w ∧
        IsGreatest (rtagIds files) t

/-- At most one position log, or the last one is also found by its bare name
in the working directory. -/
def LastLogFound (sys : Sys) (files : List Fname) : Prop :=
  (rtagIds files).Subsingleton ∨ ∃ g, IsGreatest (rtagIds files) g ∧ 0 ≤ sys.cwdSize (.rtag g)

/-- Another order of the same files has the same indices. -/
theorem Indexed.of_perm (hlt : Indexed files) (hp : l.Perm files) : Indexed l := by
  intro i hi
  exact hlt i (hi.imp hp.mem_iff.mp hp.mem_iff.mp)

/-- The order of a listing does not matter to its data files. -/
theorem dbIds_perm (hp : l.Perm files) : dbIds l = dbIds files := Set.ext fun _ => hp.mem_iff

/-- Nor to its position logs. -/
theorem rtagIds_perm (hp : l.Perm files) : rtagIds l = rtagIds files := Set.ext fun _ => hp.mem_iff

/-- Position logs of a listing are its entries of that kind. -/
theorem mem_rtagIds_iff {i : ℕ} : i ∈ rtagIds l ↔ .rtag i ∈ l.filter isRtag := by
  simp [rtagIds, isRtag]

/-- A position log of a listing has an index. -/
theorem exists_of_mem_filter_isRtag {f : Fname} (hf : f ∈ l.filter isRtag) :
    ∃ i ∈ rtagIds l, f = .rtag i := by
  cases f with
  | db i => simp [isRtag] at hf
  | rtag i => exact ⟨i, mem_rtagIds_iff.mpr hf, rfl⟩

section DataFiles

/-- Without a data file none is chosen. -/
theorem findFold_of_no_db (hno : dbIds l = ∅) (acc : FindState) :
    (l.foldl (findStep sys) acc).readFname = acc.readFname ∧
      (l.foldl (findStep sys) acc).writeFname = acc.writeFname := by
  induction l generalizing acc with
  | nil => exact ⟨rfl, rfl⟩
  | cons ent l ih =>
    cases ent with
    | db i =>
      have hmem : i ∈ dbIds (.db i :: l) := List.mem_cons_self
      simp [hno] at hmem
    | rtag i =>
      have hrest : dbIds l = ∅ := by
        apply Set.eq_empty_of_subset_empty
        rw [← hno]
        exact fun j hj => List.mem_cons_of_mem _ hj
      obtain ⟨hr, hw⟩ := ih hrest (findStep sys acc (.rtag i))
      obtain ⟨hr', hw'⟩ := findStep_rtag sys acc i
      exact ⟨hr.trans hr', hw.trans hw'⟩

/-- With a data file the least and the greatest index are chosen. -/
theorem findNames_dbs (hlt : Indexed l) {k : ℕ} (hk : k ∈ dbIds l) :
    ∃ r w, (findNames sys l).readFname = some (.db r) ∧
      (findNames sys l).writeFname = some (.db w) ∧
      IsLeast (dbIds l) r ∧ IsGreatest (dbIds l) w := by
  obtain ⟨r, w, hr, hw, hrm, hwm, hall⟩ := @findFold_dbs_of_mem sys l
    (fun i hi => hlt i (Or.inl hi)) ⟨none, none, none⟩ rfl k hk
  exact ⟨r, w, hr, hw, ⟨hrm, fun i hi => (hall i hi).1⟩, ⟨hwm, fun i hi => (hall i hi).2⟩⟩

/-- The data files chosen do not depend on the order. -/
theorem findNames_dbs_perm (hlt : Indexed files) (hp : l.Perm files) :
    (findNames sys l).readFname = (findNames sys files).readFname ∧
      (findNames sys l).writeFname = (findNames sys files).writeFname := by
  rcases (dbIds files).eq_empty_or_nonempty with hno | ⟨k, hk⟩
  · have hnone := @findFold_of_no_db sys files hno ⟨none, none, none⟩
    have hnone' := @findFold_of_no_db sys l ((dbIds_perm hp).trans hno) ⟨none, none, none⟩
    exact ⟨hnone'.1.trans hnone.1.symm, hnone'.2.trans hnone.2.symm⟩
  · obtain ⟨r, w, hr, hw, hleast, hgreatest⟩ := @findNames_dbs sys _ hlt _ hk
    have hkl : k ∈ dbIds l := by rwa [dbIds_perm hp]
    obtain ⟨r', w', hr', hw', hleast', hgreatest'⟩ := @findNames_dbs sys _ (hlt.of_perm hp) _ hkl
    rw [dbIds_perm hp] at hleast' hgreatest'
    rw [hr, hw, hr', hw', hleast'.unique hleast, hgreatest'.unique hgreatest]
    exact ⟨rfl, rfl⟩

end DataFiles

section PositionLogs

variable {g : ℕ}

/-- The log with the greatest index stays once it was chosen. -/
theorem rtagFold_stays (hlt : Indexed files) (hg : IsGreatest (rtagIds files) g) {logs : List Fname}
    (hsub : ∀ f ∈ logs, ∃ i ∈ rtagIds files, f = .rtag i) :
    logs.foldl (rtagStep sys) (some (.rtag g)) = some (.rtag g) := by
  induction logs with
  | nil => rfl
  | cons ent logs ih =>
    obtain ⟨i, hi, rfl⟩ := hsub _ List.mem_cons_self
    have hle : ¬fnameText (.rtag g) < fnameText (.rtag i) := by
      rw [fnameText_rtag_lt_iff (hlt g (Or.inr hg.1)) (hlt i (Or.inr hi))]
      exact Nat.not_lt.mpr (hg.2 hi)
    have hstep : rtagStep sys (some (.rtag g)) (.rtag i) = some (.rtag g) := by
      simp [rtagStep, hle]
    rw [List.foldl_cons, hstep]
    exact ih fun f hf => hsub f (List.mem_cons_of_mem _ hf)

/-- A greatest log that is found in the working directory is chosen wherever
it is listed. -/
theorem rtagFold_found (hlt : Indexed files) (hg : IsGreatest (rtagIds files) g)
    (hc : 0 ≤ sys.cwdSize (.rtag g)) {logs : List Fname}
    (hsub : ∀ f ∈ logs, ∃ i ∈ rtagIds files, f = .rtag i) (hmem : .rtag g ∈ logs)
    {acc : Option Fname} (hacc : ∀ f, acc = some f → ∃ i ∈ rtagIds files, f = .rtag i) :
    logs.foldl (rtagStep sys) acc = some (.rtag g) := by
  induction logs generalizing acc with
  | nil => simp at hmem
  | cons ent logs ih =>
    have hrest : ∀ f ∈ logs, ∃ i ∈ rtagIds files, f = .rtag i :=
      fun f hf => hsub f (List.mem_cons_of_mem _ hf)
    rw [List.foldl_cons]
    rcases List.mem_cons.mp hmem with heq | hm
    · have hstep : rtagStep sys acc ent = some (.rtag g) := by
        cases acc with
        | none => rw [rtagStep, heq]
        | some t =>
          obtain ⟨i, hi, rfl⟩ := hacc t rfl
          rw [← heq, rtagStep, if_neg (not_lt.mpr hc)]
          by_cases hig : i < g
          · rw [if_pos ((fnameText_rtag_lt_iff (hlt i (Or.inr hi)) (hlt g (Or.inr hg.1))).mpr hig)]
          · obtain rfl : i = g := Nat.le_antisymm (hg.2 hi) (Nat.not_lt.mp hig)
            rw [ite_self]
      rw [hstep]
      exact rtagFold_stays hlt hg hrest
    · apply ih hrest hm
      intro f hf
      obtain ⟨i, hi, rfl⟩ := hsub _ List.mem_cons_self
      cases acc with
      | none =>
        cases hf
        exact ⟨i, hi, rfl⟩
      | some t =>
        have ht := hacc t rfl
        simp only [rtagStep] at hf
        split_ifs at hf
        all_goals cases hf
        · exact ht
        · exact ⟨i, hi, rfl⟩
        · exact ht

/-- A log that is not found in the working directory is passed over after
another one was chosen. -/
theorem rtagFold_passes (hc : sys.cwdSize (.rtag g) < 0) {t : Fname} (ht : t ≠ .rtag g)
    (logs : List Fname) : logs.foldl (rtagStep sys) (some t) ≠ some (.rtag g) := by
  induction logs generalizing t with
  | nil => simpa using ht
  | cons ent logs ih =>
    rw [List.foldl_cons, rtagStep]
    by_cases hent : sys.cwdSize ent < 0
    · rw [if_pos hent]
      exact ih ht
    · rw [if_neg hent]
      have hne : ent ≠ .rtag g := by
        rintro rfl
        exact hent hc
      split_ifs
      · exact ih hne
      · exact ih ht

/-- With the condition met the log chosen is the one with the greatest index. -/
theorem findNames_rtag (hlt : Indexed files) (hlast : LastLogFound sys files) (hp : l.Perm files) :
    (rtagIds files = ∅ ∧ (findNames sys l).rtagFname = none) ∨
      ∃ g, IsGreatest (rtagIds files) g ∧ (findNames sys l).rtagFname = some (.rtag g) := by
  have hsub : ∀ f ∈ l.filter isRtag, ∃ i ∈ rtagIds files, f = .rtag i := by
    intro f hf
    rw [← rtagIds_perm hp]
    exact exists_of_mem_filter_isRtag hf
  rw [findNames, findFold_rtagFname]
  rcases hlast with hone | ⟨g, hg, hc⟩
  · cases hlogs : l.filter isRtag with
    | nil =>
      refine Or.inl ⟨Set.eq_empty_of_forall_notMem fun i hi => ?_, rfl⟩
      rw [← rtagIds_perm hp, mem_rtagIds_iff, hlogs] at hi
      simp at hi
    | cons ent logs =>
      rw [hlogs] at hsub
      obtain ⟨i, hi, rfl⟩ := hsub _ List.mem_cons_self
      have hgi : IsGreatest (rtagIds files) i := ⟨hi, fun j hj => (hone hj hi).le⟩
      exact Or.inr ⟨i, hgi, rtagFold_stays hlt hgi fun f hf => hsub f (List.mem_cons_of_mem _ hf)⟩
  · have hmem : .rtag g ∈ l.filter isRtag := by
      rw [← mem_rtagIds_iff, rtagIds_perm hp]
      exact hg.1
    exact Or.inr ⟨g, hg, rtagFold_found hlt hg hc hsub hmem (by simp)⟩

end PositionLogs

section Order

/-- The result is read off the names chosen. -/
theorem findHandleFile_congr {l' : List Fname} (h : findNames sys l = findNames sys l') :
    findHandleFile sys l = findHandleFile sys l' := by
  unfold findNames at h
  unfold findHandleFile
  rw [h]

/-- What is loaded are the names chosen. -/
theorem findNames_of_findHandleFile {file : QueueFile} (h : findHandleFile sys l = some file) :
    findNames sys l = ⟨some file.readFname, some file.writeFname, some file.rtagFname⟩ := by
  rw [findNames]
  rw [findHandleFile] at h
  rcases hnames : l.foldl (findStep sys) ⟨none, none, none⟩ with ⟨_ | r, _ | w, _ | t⟩
  case some.some.some =>
    simp only [hnames] at h
    split_ifs at h
    cases h
    rfl
  all_goals simp [hnames] at h

/-- With the last log found the order does not matter. -/
theorem orderFree_of_lastLogFound (hlt : Indexed files) (hlast : LastLogFound sys files) :
    OrderFree sys files := by
  have hnames : ∀ l, l.Perm files → findNames sys l = findNames sys files := by
    intro l hp
    obtain ⟨hr, hw⟩ := @findNames_dbs_perm sys _ _ hlt hp
    have ht : (findNames sys l).rtagFname = (findNames sys files).rtagFname := by
      rcases findNames_rtag hlt hlast hp with ⟨hno, ht⟩ | ⟨g, hg, ht⟩
      · rcases findNames_rtag hlt hlast (List.Perm.refl files) with ⟨-, ht'⟩ | ⟨g, hg, -⟩
        · rw [ht, ht']
        · exact absurd hg.1 (by simp [hno])
      · rcases findNames_rtag hlt hlast (List.Perm.refl files) with ⟨hno, -⟩ | ⟨g', hg', ht'⟩
        · exact absurd hg.1 (by simp [hno])
        · rw [ht, ht', hg.unique hg']
    calc findNames sys l
        = ⟨(findNames sys l).readFname, (findNames sys l).writeFname,
          (findNames sys l).rtagFname⟩ := rfl
      _ = findNames sys files := by rw [hr, hw, ht]
  refine ⟨fun l₁ l₂ h₁ h₂ => ?_, fun l file hp hfound => ?_⟩
  · have heq := (hnames l₁ h₁).trans (hnames l₂ h₂).symm
    exact ⟨heq, findHandleFile_congr heq⟩
  · have hchosen := findNames_of_findHandleFile hfound
    obtain ⟨t, ht, htag⟩ : ∃ g, IsGreatest (rtagIds files) g ∧ file.rtagFname = .rtag g := by
      rcases findNames_rtag hlt hlast hp with ⟨-, hnone⟩ | ⟨g, hg, hsome⟩
      · simp [hchosen] at hnone
      · exact ⟨g, hg, by simpa [hchosen] using hsome⟩
    rcases (dbIds files).eq_empty_or_nonempty with hno | ⟨k, hk⟩
    · have hnone := (@findFold_of_no_db sys l ((dbIds_perm hp).trans hno) ⟨none, none, none⟩).1
      rw [← findNames, hchosen] at hnone
      cases hnone
    · rw [← dbIds_perm hp] at hk
      obtain ⟨r, w, hr, hw, hleast, hgreatest⟩ := @findNames_dbs sys _ (hlt.of_perm hp) _ hk
      rw [dbIds_perm hp] at hleast hgreatest
      rw [hchosen] at hr hw
      refine ⟨r, w, t, ?_, hleast, hgreatest, ht⟩
      rw [← htag, ← Option.some.inj hr, ← Option.some.inj hw]

/-- Two logs of which the last is not found: listed first it is kept, listed
after another one it is not. -/
theorem exists_orders_of_not_lastLogFound (hlt : Indexed files) (hlast : ¬LastLogFound sys files) :
    ∃ l₁ l₂, l₁.Perm files ∧ l₂.Perm files ∧ findNames sys l₁ ≠ findNames sys l₂ := by
  have hbdd : BddAbove (rtagIds files) := ⟨10^12, fun i hi => (hlt i (Or.inr hi)).le⟩
  obtain ⟨hmany, hmissing⟩ := not_or.mp hlast
  obtain ⟨i, hi, j, hj, hij⟩ := Set.not_subsingleton_iff.mp hmany
  obtain ⟨g, hg⟩ : ∃ g, IsGreatest (rtagIds files) g :=
    ⟨_, Nat.sSup_mem ⟨i, hi⟩ hbdd, fun _ hk => le_csSup hbdd hk⟩
  have hc : sys.cwdSize (.rtag g) < 0 := not_le.mp fun hc => hmissing ⟨g, hg, hc⟩
  obtain ⟨x, hx, hxg⟩ : ∃ x ∈ rtagIds files, x ≠ g := by
    by_cases hig : i = g
    · exact ⟨j, hj, fun h => hij (hig.trans h.symm)⟩
    · exact ⟨i, hi, hig⟩
  have hfirst : ∀ k ∈ rtagIds files, (.rtag k :: files.erase (.rtag k)).Perm files :=
    fun k hk => (List.perm_cons_erase hk).symm
  refine ⟨_, _, hfirst g hg.1, hfirst x hx, fun heq => ?_⟩
  have hkept : (findNames sys (.rtag g :: files.erase (.rtag g))).rtagFname = some (.rtag g) := by
    rw [findNames, findFold_rtagFname, List.filter_cons_of_pos rfl, List.foldl_cons, rtagStep]
    apply rtagFold_stays hlt hg
    intro f hf
    obtain ⟨k, hk, rfl⟩ := exists_of_mem_filter_isRtag hf
    exact ⟨k, List.mem_of_mem_erase hk, rfl⟩
  have hpassed : (findNames sys (.rtag x :: files.erase (.rtag x))).rtagFname ≠ some (.rtag g) := by
    rw [findNames, findFold_rtagFname, List.filter_cons_of_pos rfl, List.foldl_cons, rtagStep]
    exact rtagFold_passes hc (by simpa using hxg) _
  exact hpassed (by rw [← heq, hkept])

/-- The order of a listing does not matter exactly when there is at most one
position log or the last one is also found in the working directory. -/
theorem orderFree_iff (hlt : Indexed files) : OrderFree sys files ↔ LastLogFound sys files := by
  refine ⟨fun hfree => ?_, orderFree_of_lastLogFound hlt⟩
  by_contra hlast
  obtain ⟨l₁, l₂, h₁, h₂, hne⟩ := exists_orders_of_not_lastLogFound hlt hlast
  exact hne (hfree.1 l₁ l₂ h₁ h₂).1

/-- Two logs of which the last one is also found in the working directory are
handled alike in every order. -/
theorem orderFree_two_logs :
    OrderFree { Sys.quiet 0 0 with cwdSize := fun _ => 0 } [.db 1, .rtag 1, .rtag 2] := by
  have hlt : Indexed [.db 1, .rtag 1, .rtag 2] := by
    intro i hi
    simp at hi
    omega
  have hids : rtagIds [.db 1, .rtag 1, .rtag 2] = {1, 2} := by
    ext i
    simp [rtagIds]
  refine (orderFree_iff hlt).mpr (.inr ⟨2, ?_, le_rfl⟩)
  rw [hids]
  exact ⟨by simp, by simp⟩

/-- Two logs, none of them found in the working directory: with the first one
listed first the queue is found, with the second one listed first it is not. -/
theorem order_decides_two_logs :
    ¬OrderFree (Sys.quiet 0 0) [.db 1, .rtag 1, .rtag 2] ∧
      (findHandleFile (Sys.quiet 0 0) [.db 1, .rtag 1, .rtag 2]).isSome = true ∧
      (findHandleFile (Sys.quiet 0 0) [.db 1, .rtag 2, .rtag 1]).isSome = false := by
  have hfound : (findHandleFile (Sys.quiet 0 0) [.db 1, .rtag 1, .rtag 2]).isSome = true := by
    decide +kernel
  have hlost : (findHandleFile (Sys.quiet 0 0) [.db 1, .rtag 2, .rtag 1]).isSome = false := by
    decide +kernel
  refine ⟨fun hfree => ?_, hfound, hlost⟩
  have heq := (hfree.1 _ _ (List.Perm.refl _) ((List.Perm.swap _ _ []).cons _)).2
  rw [heq, hlost] at hfound
  cases hfound

end Order

end Ucmq.ListingOrder
