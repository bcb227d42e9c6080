import Ucmq.UtHash
import Mathlib.Data.List.Perm.Basic

/-!
# What a hash table holds

The elements of a table are linked in the order of insertion, and each is in the
chain of the bucket that its hash selects. Adding, deleting and doubling the
buckets keep this, so that no access is out of place and a search ends at an
element with its key if there is one.
-/

namespace Ucmq.UtHash

open LinkedChain

variable {α κ : Type}

/-- A bucket holds a chain. -/
structure BucketHolds (hh : Links α) (b : UTHashBucket α) (chain : List α) : Prop where
  nodup : chain.Nodup
  linked : Linked hh chain
  head : b.hhHead = chain.head?
  count : b.count = chain.length%2^32

/-- The chains of an array of n buckets hold the elements of a list, each in the
chain that its hash selects. -/
structure BucketsHold (hh : Links α) (hashv : α → ℕ) (buckets : List (UTHashBucket α))
    (n : ℕ) (M : List α) (chain : ℕ → List α) : Prop where
  length : buckets.length = n
  chains : ∀ i < n, (∃ b, buckets[i]? = some b ∧ BucketHolds hh b (chain i)) ∧
    ∀ a, a ∈ chain i ↔ a ∈ M ∧ hashv a%n = i

variable {hh : Links α} {hashv : α → ℕ} {buckets : List (UTHashBucket α)} {n : ℕ} {M : List α}
  {chain : ℕ → List α} {a : α}

/-- The bucket of an element, for a number of buckets that is a power of two. -/
theorem hashToBkt_eq (v k : ℕ) : hashToBkt v (2^k) = v%2^k := Nat.and_two_pow_sub_one_eq_mod v k

/-- Chains of different buckets share no element. -/
theorem BucketsHold.disjoint (h : BucketsHold hh hashv buckets n M chain) {i j : ℕ}
    (hi : i < n) (hj : j < n) (hij : i ≠ j) {a : α} (ha : a ∈ chain i) : a ∉ chain j := by
  intro hb
  exact hij ((((h.chains i hi).2 a).mp ha).2.symm.trans (((h.chains j hj).2 a).mp hb).2)

/-- The empty array. -/
theorem bucketsHold_zero (hh : Links α) (hashv : α → ℕ) (n : ℕ) :
    BucketsHold hh hashv (.replicate n .zero) n [] (fun _ => []) := by
  refine ⟨List.length_replicate, fun i hi => ?_⟩
  refine ⟨⟨.zero, by simp [hi], List.nodup_nil, .nil hh, rfl, rfl⟩, by simp⟩

/-- Chains do not depend on fields of other elements. -/
theorem BucketsHold.congr {hh' : Links α} {hashv' : α → ℕ} {M' : List α}
    (h : BucketsHold hh hashv buckets n M chain)
    (hM : ∀ a, a ∈ M' ↔ a ∈ M)
    (hagree : ∀ a ∈ M, hh'.prev a = hh.prev a ∧ hh'.next a = hh.next a ∧ hashv' a = hashv a) :
    BucketsHold hh' hashv' buckets n M' chain := by
  refine ⟨h.length, fun i hi => ?_⟩
  obtain ⟨⟨b, hb, hholds⟩, hmem⟩ := h.chains i hi
  have hin : ∀ a ∈ chain i, a ∈ M := fun a ha => ((hmem a).mp ha).1
  refine ⟨⟨b, hb, hholds.nodup, ?_, hholds.head, hholds.count⟩, fun a => ?_⟩
  · exact hholds.linked.congr fun a ha => ⟨(hagree a (hin a ha)).1, (hagree a (hin a ha)).2.1⟩
  · rw [hmem, hM]
    refine and_congr_right fun ha => ?_
    rw [(hagree a ha).2.2]

/-- A chain is no longer than the list. -/
theorem BucketsHold.length_le (h : BucketsHold hh hashv buckets n M chain) {i : ℕ} (hi : i < n) :
    (chain i).length ≤ M.length := by
  obtain ⟨⟨b, -, hholds⟩, hmem⟩ := h.chains i hi
  exact (List.subperm_of_subset hholds.nodup fun a ha => ((hmem a).mp ha).1).length_le

/-- A table holds the elements of a list, in the order of insertion. -/
structure TableHolds (hh : Links α) (hashv : α → ℕ) (tbl : UTHashTable α) (items : List α) :
    Prop where
  chains : ∃ chain, BucketsHold hh hashv tbl.buckets tbl.numBuckets items chain
  pow : tbl.numBuckets = 2^tbl.log2NumBuckets
  small : tbl.log2NumBuckets ≤ 30
  numItems : tbl.numItems = items.length
  room : items.length < 2^32
  tail : items.getLast? = some tbl.tail

/-- There is a bucket. -/
theorem TableHolds.pos {tbl : UTHashTable α} {items : List α} (h : TableHolds hh hashv tbl items) :
    0 < tbl.numBuckets := by
  rw [h.pow]
  exact Nat.two_pow_pos _

/-- The ideal length of a chain is positive when there are elements. -/
theorem idealChainMaxlen_pos {tbl : UTHashTable α}
    (hpow : (tbl.numBuckets*2)%2^32 = 2^(tbl.log2NumBuckets+1))
    (hitems : 0 < tbl.numItems) : 0 < idealChainMaxlen tbl := by
  unfold idealChainMaxlen
  rw [hpow, Nat.and_two_pow_sub_one_eq_mod, Nat.shiftRight_eq_div_pow]
  by_cases hrem : tbl.numItems%2^(tbl.log2NumBuckets+1) = 0
  · have hdvd := Nat.dvd_of_mod_eq_zero hrem
    exact Nat.lt_of_lt_of_le (Nat.div_pos (Nat.le_of_dvd hitems hdvd) (Nat.two_pow_pos _))
      (Nat.le_add_right _ _)
  · rw [if_neg hrem]
    exact Nat.succ_pos _

/-- A search in a chain ends at the first element with the key. -/
theorem hashFindInBkt_walks [DecidableEq κ] {next : α → Option α} {key : α → κ} {k : κ} {l : List α}
    {p : Option α} {n : ℕ} (hw : Walks next p l) (hn : l.length ≤ n) :
    hashFindInBkt next key k n p = .ok (l.find? fun a => key a = k) := by
  induction l generalizing p n with
  | nil =>
    obtain rfl : p = none := hw
    cases n <;> rfl
  | cons a l ih =>
    obtain ⟨rfl, hw⟩ := hw
    cases n with
    | zero => simp at hn
    | succ n =>
      by_cases hk : key a = k
      · simp [hashFindInBkt, hk]
      · rw [hashFindInBkt, if_neg hk, List.find?_cons_of_neg (by simpa using hk)]
        exact ih hw (Nat.le_of_succ_le_succ hn)

/-- What a head pointer leads to. -/
def HeadHolds (hh : Links α) (hashv : α → ℕ) (head : Option (α × UTHashTable α)) (items : List α) :
    Prop :=
  match head with
  | none => items = []
  | some (a, tbl) => items.head? = some a ∧ TableHolds hh hashv tbl items

/-- A hash holds the elements of a list. -/
structure Holds (fcn : κ → ℕ) (h : Hash α κ) (items : List α) : Prop where
  nodup : items.Nodup
  app : Linked h.app items
  hashv : ∀ a ∈ items, h.hashv a = fcn (h.key a)
  head : HeadHolds h.hh h.hashv h.head items

/-- Every pointer of a hash, in its head, in its table and in its elements, leads
to an element of the list. -/
structure PointsInto (h : Hash α κ) (items : List α) : Prop where
  head : ∀ a tbl, h.head = some (a, tbl) → a ∈ items ∧ tbl.tail ∈ items
  buckets : ∀ a tbl, h.head = some (a, tbl) → ∀ b ∈ tbl.buckets, ∀ c, b.hhHead = some c → c ∈ items
  app : ∀ a ∈ items, ∀ b, h.app.prev a = some b ∨ h.app.next a = some b → b ∈ items
  hh : ∀ a ∈ items, ∀ b, h.hh.prev a = some b ∨ h.hh.next a = some b → b ∈ items

/-- A hash that holds the elements of a list points to nothing else. -/
theorem Holds.pointsInto {fcn : κ → ℕ} {h : Hash α κ} {items : List α} (hh : Holds fcn h items) :
    PointsInto h items := by
  have hhead := hh.head
  cases hfirst : h.head with
  | none =>
    rw [hfirst] at hhead
    obtain rfl : items = [] := hhead
    exact ⟨by simp [hfirst], by simp [hfirst], by simp, by simp⟩
  | some head =>
    obtain ⟨first, tbl⟩ := head
    rw [hfirst] at hhead
    obtain ⟨hf, htbl⟩ := hhead
    obtain ⟨chain, hchain⟩ := htbl.chains
    refine ⟨fun a t ht => ?_, fun a t ht b hb c hc => ?_, fun a ha b => hh.app.mem_of_link ha,
      fun a ha b hb => ?_⟩
    · obtain ⟨rfl, rfl⟩ : first = a ∧ tbl = t := by simpa [hfirst] using ht
      exact ⟨List.mem_of_head? hf, List.mem_of_getLast? htbl.tail⟩
    · obtain ⟨rfl, rfl⟩ : first = a ∧ tbl = t := by simpa [hfirst] using ht
      obtain ⟨i, hi, hbi⟩ := List.getElem_of_mem hb
      obtain ⟨⟨b', hb', hholds⟩, hmem⟩ := hchain.chains i (hchain.length ▸ hi)
      obtain rfl : b' = b :=
        Option.some.inj (hb'.symm.trans (List.getElem?_eq_some_iff.mpr ⟨hi, hbi⟩))
      rw [hholds.head] at hc
      exact ((hmem c).mp (List.mem_of_head? hc)).1
    · have hi : h.hashv a%tbl.numBuckets < tbl.numBuckets := Nat.mod_lt _ htbl.pos
      obtain ⟨⟨b', -, hholds⟩, hmem⟩ := hchain.chains _ hi
      exact ((hmem b).mp (hholds.linked.mem_of_link ((hmem a).mpr ⟨ha, rfl⟩) hb)).1

/-- The order of the elements does not matter. -/
theorem PointsInto.of_perm {h : Hash α κ} {items items' : List α} (hp : PointsInto h items)
    (hperm : items.Perm items') : PointsInto h items' := by
  have hmem : ∀ a, a ∈ items' ↔ a ∈ items := fun a => hperm.mem_iff.symm
  refine ⟨fun a tbl ht => ?_, fun a tbl ht b hb c hc => ?_, fun a ha b hb => ?_,
    fun a ha b hb => ?_⟩
  · rw [hmem, hmem]
    exact hp.head a tbl ht
  · exact (hmem c).mpr (hp.buckets a tbl ht b hb c hc)
  · exact (hmem b).mpr (hp.app a ((hmem a).mp ha) b hb)
  · exact (hmem b).mpr (hp.hh a ((hmem a).mp ha) b hb)

/-- A search ends at an element with the key, if there is one. -/
theorem hashFind_holds [DecidableEq κ] {fcn : κ → ℕ} {h : Hash α κ} {items : List α}
    (hh : Holds fcn h items) (k : κ) :
    ∃ r, hashFind fcn k h = .ok r ∧ (∀ a, r = some a → a ∈ items ∧ h.key a = k) ∧
      (r = none → ∀ a ∈ items, h.key a ≠ k) := by
  have hhead := hh.head
  unfold hashFind
  cases hfirst : h.head with
  | none =>
    rw [hfirst] at hhead
    obtain rfl : items = [] := hhead
    exact ⟨none, rfl, by simp, by simp⟩
  | some head =>
    obtain ⟨first, tbl⟩ := head
    rw [hfirst] at hhead
    obtain ⟨-, htbl⟩ : items.head? = some first ∧ TableHolds h.hh h.hashv tbl items := hhead
    obtain ⟨chain, hchain⟩ := htbl.chains
    have hlt : fcn k%tbl.numBuckets < tbl.numBuckets := Nat.mod_lt _ htbl.pos
    obtain ⟨⟨b, hb, hholds⟩, hmem⟩ := hchain.chains _ hlt
    have hbkt : hashToBkt (fcn k) tbl.numBuckets = fcn k%tbl.numBuckets := by
      rw [htbl.pow, hashToBkt_eq]
    have hw : Walks h.hh.next b.hhHead (chain (fcn k%tbl.numBuckets)) := by
      rw [hholds.head]
      exact hholds.linked.walks
    have hlen := hchain.length_le hlt
    rw [← htbl.numItems] at hlen
    simp only [hbkt, hb]
    refine ⟨_, hashFindInBkt_walks hw hlen, fun a ha => ?_, fun hnone a ha hk => ?_⟩
    · refine ⟨((hmem a).mp (List.mem_of_find?_eq_some ha)).1, ?_⟩
      simpa using List.find?_some ha
    · have hin : a ∈ chain (fcn k%tbl.numBuckets) := (hmem a).mpr ⟨ha, by rw [hh.hashv a ha, hk]⟩
      simpa [hk] using List.find?_eq_none.mp hnone a hin

/-- An iteration that leaves the table visits the elements in their order. -/
theorem hashIter_walks {next : α → Option α} {l : List α} {p : Option α} {n : ℕ}
    (hw : Walks next p l) (hn : l.length ≤ n) : hashIter next n p = .ok l := by
  induction l generalizing p n with
  | nil =>
    obtain rfl : p = none := hw
    cases n <;> rfl
  | cons a l ih =>
    obtain ⟨rfl, hw⟩ := hw
    cases n with
    | zero => simp at hn
    | succ n => rw [hashIter, ih hw (Nat.le_of_succ_le_succ hn)]; rfl

/-- The count is the number of elements. -/
theorem hashCount_holds {fcn : κ → ℕ} {h : Hash α κ} {items : List α} (hh : Holds fcn h items) :
    hashCount h = items.length := by
  have hhead := hh.head
  unfold hashCount
  cases hfirst : h.head with
  | none =>
    rw [hfirst] at hhead
    obtain rfl : items = [] := hhead
    rfl
  | some head =>
    obtain ⟨first, tbl⟩ := head
    rw [hfirst] at hhead
    exact hhead.2.numItems

/-- The head pointer is the first element. -/
theorem Holds.head? {fcn : κ → ℕ} {h : Hash α κ} {items : List α} (hh : Holds fcn h items) :
    h.head.map Prod.fst = items.head? := by
  have hhead := hh.head
  cases hfirst : h.head with
  | none =>
    rw [hfirst] at hhead
    obtain rfl : items = [] := hhead
    rfl
  | some head =>
    obtain ⟨first, tbl⟩ := head
    rw [hfirst] at hhead
    exact hhead.1.symm

/-- A table is made of zeroed buckets, or the process exits. -/
theorem hashMakeTable_eq (mem : ℕ → Bool) (a : α) :
    hashMakeTable mem a = .error .exit ∨
      hashMakeTable mem a = .ok ⟨.replicate hashInitialNumBuckets .zero,
        hashInitialNumBuckets, 5, 0, a, 0, 0, 0, 0⟩ := by
  unfold hashMakeTable uthashMalloc
  by_cases htable : mem 64 = true
  · by_cases hbuckets : mem (hashInitialNumBuckets*16) = true
    · exact .inr (by simp only [htable, hbuckets, if_true, bind, Except.bind])
    · exact .inl (by simp only [htable, hbuckets, if_true, bind, Except.bind]; rfl)
  · exact .inl (by simp only [htable, bind, Except.bind]; rfl)

variable [DecidableEq α]

/-- Linking a new element at the head of its chain. -/
theorem BucketsHold.push (h : BucketsHold hh hashv buckets n M chain) (ha : a ∉ M) (hn : 0 < n)
    {b : UTHashBucket α} (hb : buckets[hashv a%n]? = some b) (mult : ℕ) :
    BucketsHold (hh.pushFront a b.hhHead) hashv
      (buckets.set (hashv a%n) ⟨some a, (b.count+1)%2^32, mult⟩) n (a :: M)
      (Function.update chain (hashv a%n) (a :: chain (hashv a%n))) := by
  have hlt : hashv a%n < n := Nat.mod_lt _ hn
  obtain ⟨⟨b', hb', hholds⟩, hmem⟩ := h.chains _ hlt
  obtain rfl : b' = b := Option.some.inj (hb'.symm.trans hb)
  have hachain : ∀ i < n, a ∉ chain i := fun i hi hin => ha (((h.chains i hi).2 a).mp hin).1
  refine ⟨by rw [List.length_set, h.length], fun i hi => ?_⟩
  by_cases hia : i = hashv a%n
  · subst hia
    rw [Function.update_self]
    refine ⟨⟨_, List.getElem?_set_self (List.getElem?_eq_some_iff.mp hb).1, ?_, ?_, rfl, ?_⟩,
      fun c => ?_⟩
    · exact List.nodup_cons.mpr ⟨hachain _ hlt, hholds.nodup⟩
    · rw [hholds.head]
      exact hholds.linked.pushFront hholds.nodup (hachain _ hlt)
    · rw [hholds.count, List.length_cons]
      exact Nat.mod_add_mod _ _ _
    · rw [List.mem_cons, List.mem_cons, hmem]
      constructor
      · rintro (rfl | ⟨hc, he⟩)
        · exact ⟨.inl rfl, rfl⟩
        · exact ⟨.inr hc, he⟩
      · rintro ⟨rfl | hc, he⟩
        · exact .inl rfl
        · exact .inr ⟨hc, he⟩
  · obtain ⟨⟨c, hc, hcholds⟩, hcmem⟩ := h.chains i hi
    rw [Function.update_of_ne hia]
    refine ⟨⟨c, ?_, hcholds.nodup, ?_, hcholds.head, hcholds.count⟩, fun d => ?_⟩
    · rwa [List.getElem?_set_ne (Ne.symm hia)]
    · -- neither the element nor the head of its chain is in this chain
      refine hcholds.linked.congr fun d hd => ?_
      have hda : a ≠ d := by
        rintro rfl
        exact hachain i hi hd
      have hdh : b'.hhHead ≠ some d := by
        rw [hholds.head]
        exact head?_ne (h.disjoint hi hlt hia hd)
      simp [Links.pushFront, Links.setPrev_prev, Links.setNext_next, hda, hdh]
    · rw [hcmem, List.mem_cons]
      constructor
      · exact fun hd => ⟨.inr hd.1, hd.2⟩
      · rintro ⟨rfl | hd, he⟩
        · exact absurd he.symm hia
        · exact ⟨hd, he⟩

/-- Unlinking an element from its chain. -/
theorem BucketsHold.delete (h : BucketsHold hh hashv buckets n M chain) (hM : M.Nodup)
    (ha : a ∈ M) (hn : 0 < n) {b : UTHashBucket α} (hb : buckets[hashv a%n]? = some b) :
    BucketsHold (hh.unlink a) hashv
      (buckets.set (hashv a%n) ⟨if b.hhHead = some a then hh.next a else b.hhHead,
        (b.count+(2^32-1))%2^32, b.expandMult⟩) n (M.erase a)
      (Function.update chain (hashv a%n) ((chain (hashv a%n)).erase a)) := by
  have hlt : hashv a%n < n := Nat.mod_lt _ hn
  obtain ⟨⟨b', hb', hholds⟩, hmem⟩ := h.chains _ hlt
  obtain rfl : b' = b := Option.some.inj (hb'.symm.trans hb)
  obtain ⟨m₁, m₂, hnot, hsplit, herase⟩ := List.exists_erase_eq ((hmem a).mpr ⟨ha, rfl⟩)
  have hnd := hholds.nodup
  have hlink := hholds.linked
  rw [hsplit] at hnd hlink
  obtain ⟨hpa, hna⟩ := hlink m₁ a m₂ rfl
  have hanot : a ∉ m₂ := (List.nodup_cons.mp (List.nodup_append.mp hnd).2.1).1
  refine ⟨by rw [List.length_set, h.length], fun i hi => ?_⟩
  by_cases hia : i = hashv a%n
  · subst hia
    rw [Function.update_self, herase]
    refine ⟨⟨_, List.getElem?_set_self (List.getElem?_eq_some_iff.mp hb).1, ?_,
      hlink.unlink hnd, ?_, ?_⟩, fun c => ?_⟩
    · rw [← herase]
      exact hholds.nodup.erase a
    · rw [hholds.head, hsplit]
      cases m₁ with
      | nil => simp [hna]
      | cons x m₁ =>
        have hxa : x ≠ a := by
          rintro rfl
          simp at hnot
        simp [hxa]
    · rw [hholds.count, hsplit, Nat.mod_add_mod]
      have hlen : (m₁ ++ a :: m₂).length+(2^32-1) = (m₁ ++ m₂).length+2^32 := by
        simp only [List.length_append, List.length_cons]
        omega
      show ((m₁ ++ a :: m₂).length+(2^32-1))%2^32 = _
      rw [hlen, Nat.add_mod_right]
    · rw [hM.mem_erase_iff, ← herase, hholds.nodup.mem_erase_iff, hmem]
      exact and_assoc.symm
  · obtain ⟨⟨c, hc, hcholds⟩, hcmem⟩ := h.chains i hi
    rw [Function.update_of_ne hia]
    refine ⟨⟨c, ?_, hcholds.nodup, ?_, hcholds.head, hcholds.count⟩, fun d => ?_⟩
    · rwa [List.getElem?_set_ne (Ne.symm hia)]
    · -- the neighbours of the element are in its own chain
      refine hcholds.linked.congr fun d hd => ?_
      have hdnot : d ∉ m₁ ++ a :: m₂ := by
        rw [← hsplit]
        exact h.disjoint hi hlt hia hd
      have hd₁ : d ∉ m₁ := fun hm => hdnot (List.mem_append_left _ hm)
      have hd₂ : d ∉ m₂ := fun hm => hdnot (List.mem_append_right _ (List.mem_cons_of_mem a hm))
      rw [Links.unlink_prev, Links.unlink_next, hpa, hna, if_neg (head?_ne hd₂),
        if_neg (getLast?_ne hd₁)]
      exact ⟨rfl, rfl⟩
    · rw [hcmem, hM.mem_erase_iff]
      constructor
      · rintro ⟨hd, he⟩
        refine ⟨⟨?_, hd⟩, he⟩
        rintro rfl
        exact hia he.symm
      · exact fun hd => ⟨hd.1.2, hd.2⟩

/-- A move puts an element into the new array and leaves the way through the
other elements. -/
theorem expandMove_holds {x : Expansion α} {k ideal : ℕ}
    (h : BucketsHold x.hh hashv x.newBuckets (2^k) M chain) (ha : a ∉ M) (hideal : 0 < ideal) :
    ∃ x' chain', expandMove (2^k) ideal hashv a x = .ok x' ∧
      BucketsHold x'.hh hashv x'.newBuckets (2^k) (a :: M) chain' ∧
      ∀ b, b ≠ a → x'.hh.next b = x.hh.next b := by
  obtain ⟨⟨b, hb, -⟩, -⟩ := h.chains (hashv a%2^k) (Nat.mod_lt _ (Nat.two_pow_pos k))
  have hframe : ∀ c, c ≠ a → (x.hh.pushFront a b.hhHead).next c = x.hh.next c := by
    intro c hc
    simp [Links.pushFront, Links.setNext_next, Ne.symm hc]
  unfold expandMove
  simp only [hashToBkt_eq, hb]
  by_cases hlong : ideal < (b.count+1)%2^32
  · rw [if_pos hlong, if_neg (Nat.pos_iff_ne_zero.mp hideal)]
    exact ⟨_, _, rfl, h.push ha (Nat.two_pow_pos k) hb _, hframe⟩
  · rw [if_neg hlong]
    exact ⟨_, _, rfl, h.push ha (Nat.two_pow_pos k) hb _, hframe⟩

/-- A chain is moved element by element. -/
theorem expandChain_holds {k ideal fuel : ℕ} (hideal : 0 < ideal) {l : List α} {p : Option α}
    {x : Expansion α} (hw : Walks x.hh.next p l) (hnd : l.Nodup) (hnew : ∀ a ∈ l, a ∉ M)
    (hfuel : l.length ≤ fuel) (h : BucketsHold x.hh hashv x.newBuckets (2^k) M chain) :
    ∃ x' chain', expandChain (2^k) ideal hashv fuel p x = .ok x' ∧
      BucketsHold x'.hh hashv x'.newBuckets (2^k) (l.reverse ++ M) chain' ∧
      ∀ b, b ∉ l → x'.hh.next b = x.hh.next b := by
  induction l generalizing p x M chain fuel with
  | nil =>
    obtain rfl : p = none := hw
    exact ⟨x, chain, by cases fuel <;> rfl, h, fun _ _ => rfl⟩
  | cons a l ih =>
    obtain ⟨rfl, hw⟩ := hw
    obtain ⟨hal, hnd⟩ := List.nodup_cons.mp hnd
    cases fuel with
    | zero => simp at hfuel
    | succ fuel =>
      obtain ⟨x₁, chain₁, hmove, h₁, hframe₁⟩ :=
        expandMove_holds h (hnew a List.mem_cons_self) hideal
      have hne : ∀ b ∈ l, b ≠ a := by
        rintro b hb rfl
        exact hal hb
      have hnew₁ : ∀ b ∈ l, b ∉ a :: M := by
        intro b hb hin
        rcases List.mem_cons.mp hin with hin | hin
        · exact hne b hb hin
        · exact hnew b (List.mem_cons_of_mem a hb) hin
      obtain ⟨x₂, chain₂, hrest, h₂, hframe₂⟩ :=
        ih (hw.congr fun b hb => hframe₁ b (hne b hb)) hnd hnew₁
        (Nat.le_of_succ_le_succ hfuel) h₁
      refine ⟨x₂, chain₂, ?_, ?_, fun b hb => ?_⟩
      · show (expandMove (2^k) ideal hashv a x >>= fun y =>
          expandChain (2^k) ideal hashv fuel (x.hh.next a) y) = _
        rw [hmove]
        exact hrest
      · rwa [List.reverse_cons, List.append_assoc]
      · obtain ⟨hba, hbl⟩ := not_or.mp (fun hin => hb (List.mem_cons.mpr hin))
        rw [hframe₂ b hbl, hframe₁ b hba]

/-- The chains are moved bucket by bucket: the new array holds what the buckets
done selected, and the way through the others is as before. -/
theorem expandBuckets_holds {k ideal fuel : ℕ} (hideal : 0 < ideal)
    (h : BucketsHold hh hashv buckets n M chain) (hn : 0 < n)
    (hfuel : M.length ≤ fuel) (j : ℕ) {i : ℕ} (hij : i+j = n) {x : Expansion α}
    {chain' : ℕ → List α}
    (hx : BucketsHold x.hh hashv x.newBuckets (2^k) (M.filter fun a => hashv a%n < i) chain')
    (hframe : ∀ a, i ≤ hashv a%n → x.hh.next a = hh.next a) :
    ∃ x' chain'', (buckets.drop i).foldlM
      (fun x b => expandChain (2^k) ideal hashv fuel b.hhHead x) x = .ok x' ∧
      BucketsHold x'.hh hashv x'.newBuckets (2^k) M chain'' := by
  induction j generalizing i x chain' with
  | zero =>
    refine ⟨x, chain', ?_, hx.congr (fun a => ?_) fun a _ => ⟨rfl, rfl, rfl⟩⟩
    · rw [List.drop_eq_nil_of_le (by rw [h.length]; omega)]
      rfl
    · have hlt := Nat.mod_lt (hashv a) hn
      simp only [List.mem_filter, decide_eq_true_eq]
      exact ⟨fun ha => ⟨ha, by omega⟩, fun ha => ha.1⟩
  | succ j ih =>
    have hi : i < n := by omega
    obtain ⟨⟨b, hb, hholds⟩, hmem⟩ := h.chains i hi
    obtain ⟨hlt, hbi⟩ := List.getElem?_eq_some_iff.mp hb
    have hw : Walks x.hh.next b.hhHead (chain i) := by
      rw [hholds.head]
      exact hholds.linked.walks.congr fun a ha => hframe a (Nat.le_of_eq ((hmem a).mp ha).2.symm)
    have hnew : ∀ a ∈ chain i, a ∉ M.filter fun a => hashv a%n < i := by
      intro a ha hin
      have hlt' := (List.mem_filter.mp hin).2
      simp only [decide_eq_true_eq] at hlt'
      have heq := ((hmem a).mp ha).2
      omega
    obtain ⟨x₁, chain₁, hmove, h₁, hframe₁⟩ :=
      expandChain_holds hideal hw hholds.nodup hnew (Nat.le_trans (h.length_le hi) hfuel) hx
    have hdone : ∀ a, (a ∈ M.filter fun a => hashv a%n < i+1) ↔
        a ∈ (chain i).reverse ++ M.filter fun a => hashv a%n < i := by
      intro a
      simp only [List.mem_append, List.mem_reverse, List.mem_filter, decide_eq_true_eq, hmem]
      constructor
      · rintro ⟨ha, hlt'⟩
        rcases Nat.lt_or_ge (hashv a%n) i with hlo | hhi
        · exact .inr ⟨ha, hlo⟩
        · exact .inl ⟨ha, by omega⟩
      · rintro (⟨ha, he⟩ | ⟨ha, hlo⟩)
        · exact ⟨ha, by omega⟩
        · exact ⟨ha, by omega⟩
    have hframe₂ : ∀ a, i+1 ≤ hashv a%n → x₁.hh.next a = hh.next a := by
      intro a ha
      rw [hframe₁ a fun hin => ?_]
      · exact hframe a (by omega)
      · have heq := ((hmem a).mp hin).2
        omega
    obtain ⟨x₂, chain₂, hrest, h₂⟩ := ih (i := i+1) (by omega)
      (h₁.congr hdone fun a _ => ⟨rfl, rfl, rfl⟩) hframe₂
    refine ⟨x₂, chain₂, ?_, h₂⟩
    rw [List.drop_eq_getElem_cons hlt, hbi, List.foldlM_cons, hmove]
    exact hrest

/-- No memory of 32 GiB is given in one piece. -/
def Bounded (mem : ℕ → Bool) : Prop := ∀ sz, 2^35 ≤ sz → mem sz = false

/-- Doubling the buckets keeps the elements, or the process exits. -/
theorem hashExpandBuckets_holds {mem : ℕ → Bool} (hmem : Bounded mem) {tbl : UTHashTable α}
    {items : List α} (h : TableHolds hh hashv tbl items) :
    hashExpandBuckets mem hashv tbl hh = .error .exit ∨
      ∃ tbl' hh', hashExpandBuckets mem hashv tbl hh = .ok (tbl', hh') ∧
        TableHolds hh' hashv tbl' items := by
  have hsmall := h.small
  have hle : 2^tbl.log2NumBuckets ≤ 2^30 := Nat.pow_le_pow_right (by decide) hsmall
  have hdouble : (tbl.numBuckets*2)%2^32 = 2^(tbl.log2NumBuckets+1) := by
    rw [h.pow, ← Nat.pow_succ]
    refine Nat.mod_eq_of_lt ?_
    rw [Nat.pow_succ]
    omega
  unfold hashExpandBuckets
  rw [hdouble]
  by_cases hgiven : mem (2^(tbl.log2NumBuckets+1)*16) = true
  · right
    have hlog : tbl.log2NumBuckets+1 ≤ 30 := by
      by_contra hlarge
      obtain hlog : tbl.log2NumBuckets = 30 := by omega
      rw [hlog, hmem _ (by decide)] at hgiven
      cases hgiven
    have hpos : 0 < tbl.numItems := by
      rw [h.numItems]
      exact List.length_pos_iff.mpr (by rintro rfl; cases h.tail)
    obtain ⟨chain, hchain⟩ := h.chains
    have hstart : BucketsHold hh hashv (.replicate (2^(tbl.log2NumBuckets+1)) .zero)
        (2^(tbl.log2NumBuckets+1)) (items.filter fun a => hashv a%tbl.numBuckets < 0)
          (fun _ => []) :=
      (bucketsHold_zero hh hashv _).congr (fun a => by simp) fun a ha => by simp at ha
    obtain ⟨x, chain', hfold, hx⟩ := expandBuckets_holds (x := ⟨_, 0, hh⟩)
      (idealChainMaxlen_pos hdouble hpos) hchain h.pos (Nat.le_of_eq h.numItems.symm) tbl.numBuckets
      (Nat.zero_add _) hstart fun _ _ => rfl
    rw [List.drop_zero] at hfold
    simp only [uthashMalloc, hgiven, if_true, bind, Except.bind] at hfold ⊢
    rw [hfold]
    exact ⟨_, _, rfl, ⟨chain', hx⟩, rfl, hlog, h.numItems, h.room, h.tail⟩
  · left
    simp [uthashMalloc, hgiven, bind, Except.bind]

/-- A new element goes to its chain, or the process exits. -/
theorem hashAddToBkt_holds {mem : ℕ → Bool} (hmem : Bounded mem) {tbl : UTHashTable α}
    {items : List α} (hchain : BucketsHold hh hashv tbl.buckets tbl.numBuckets items chain)
    (hpow : tbl.numBuckets = 2^tbl.log2NumBuckets) (hsmall : tbl.log2NumBuckets ≤ 30)
    (hitems : tbl.numItems = items.length+1) (hroom : items.length+1 < 2^32) (htail : tbl.tail = a)
    (ha : a ∉ items) :
    hashAddToBkt mem hashv (hashToBkt (hashv a) tbl.numBuckets) a tbl hh = .error .exit ∨
      ∃ tbl' hh', hashAddToBkt mem hashv (hashToBkt (hashv a) tbl.numBuckets) a tbl hh =
        .ok (tbl', hh') ∧
        TableHolds hh' hashv tbl' (items ++ [a]) := by
  have hbkt : hashToBkt (hashv a) tbl.numBuckets = hashv a%tbl.numBuckets := by
    rw [hpow, hashToBkt_eq]
  have hpos : 0 < tbl.numBuckets := by
    rw [hpow]
    exact Nat.two_pow_pos _
  obtain ⟨⟨b, hb, -⟩, -⟩ := hchain.chains _ (Nat.mod_lt (hashv a) hpos)
  have hmem' : ∀ c, c ∈ items ++ [a] ↔ c ∈ a :: items := fun c => by simp [or_comm]
  have hpush := (hchain.push ha hpos hb b.expandMult).congr hmem' fun _ _ => ⟨rfl, rfl, rfl⟩
  have hholds : TableHolds (hh.pushFront a b.hhHead) hashv
      { tbl with buckets := tbl.buckets.set (hashv a%tbl.numBuckets) ⟨some a, (b.count+1)%2^32,
        b.expandMult⟩ }
      (items ++ [a]) :=
    ⟨⟨_, hpush⟩, hpow, hsmall, by simp [hitems], by simpa using hroom, by simp [htail]⟩
  unfold hashAddToBkt
  simp only [hbkt, hb]
  split_ifs with hexpand
  · exact hashExpandBuckets_holds hmem hholds
  · exact .inr ⟨_, _, rfl, hholds⟩

/-- A new element becomes the last one of a table that is there. -/
theorem hashAddItem_holds {mem : ℕ → Bool} (hmem : Bounded mem) {fcn : κ → ℕ} {h : Hash α κ}
    {items : List α} (hh : Holds fcn h items) (ha : a ∉ items) (hroom : items.length+1 < 2^32)
    (k : κ) {head : α} {tbl : UTHashTable α}
    (hchain : BucketsHold h.hh h.hashv tbl.buckets tbl.numBuckets items chain)
    (hpow : tbl.numBuckets = 2^tbl.log2NumBuckets) (hsmall : tbl.log2NumBuckets ≤ 30)
    (hitems : tbl.numItems = items.length) (htail : tbl.tail = a)
    (hhead : (items ++ [a]).head? = some head) :
    hashAddItem mem fcn k a head tbl items.getLast? h = .error .exit ∨
      ∃ h', hashAddItem mem fcn k a head tbl items.getLast? h = .ok h' ∧
        Holds fcn h' (items ++ [a]) ∧
        h'.key = Function.update h.key a k := by
  have hne : ∀ c ∈ items, c ≠ a := by
    rintro c hc rfl
    exact ha hc
  have hchain' :
      BucketsHold h.hh (Function.update h.hashv a (fcn k)) tbl.buckets tbl.numBuckets items chain :=
    hchain.congr (fun _ => .rfl) fun c hc => ⟨rfl, rfl, Function.update_of_ne (hne c hc) _ _⟩
  have hcount : (tbl.numItems+1)%2^32 = items.length+1 := by
    rw [hitems]
    exact Nat.mod_eq_of_lt hroom
  have hspec := @hashAddToBkt_holds _ _ _ chain a _ _ hmem
    { tbl with numItems := (tbl.numItems+1)%2^32 } _ hchain' hpow hsmall hcount hroom htail ha
  rw [Function.update_self] at hspec
  unfold hashAddItem
  rcases hspec with hexit | ⟨tbl', hh', hok, hholds⟩
  · left
    simp only [hexit, bind, Except.bind]
  · right
    simp only [hok, bind, Except.bind]
    refine ⟨_, rfl, ⟨?_, hh.app.pushBack hh.nodup ha, ?_, hhead, hholds⟩, rfl⟩
    · refine List.nodup_append.mpr ⟨hh.nodup, List.nodup_singleton a, fun c hc d hd => ?_⟩
      rw [List.mem_singleton.mp hd]
      exact hne c hc
    · intro c hc
      by_cases hca : c = a
      · subst hca
        simp
      · have hin : c ∈ items := by simpa [hca] using hc
        simp [hca, hh.hashv c hin]

/-- A new element becomes the last one, or the process exits. -/
theorem hashAdd_holds {mem : ℕ → Bool} (hmem : Bounded mem) {fcn : κ → ℕ} {h : Hash α κ}
    {items : List α} (hh : Holds fcn h items) (ha : a ∉ items) (hroom : items.length+1 < 2^32)
    (k : κ) :
    hashAdd mem fcn k a h = .error .exit ∨
      ∃ h', hashAdd mem fcn k a h = .ok h' ∧ Holds fcn h' (items ++ [a]) ∧
        h'.key = Function.update h.key a k := by
  have hhead := hh.head
  unfold hashAdd
  cases hfirst : h.head with
  | none =>
    rw [hfirst] at hhead
    obtain rfl : items = [] := hhead
    rcases hashMakeTable_eq mem a with hmake | hmake
    · left
      simp only [hmake, bind, Except.bind]
    · simp only [hmake, bind, Except.bind]
      exact hashAddItem_holds hmem hh ha hroom k
        (bucketsHold_zero h.hh h.hashv hashInitialNumBuckets) rfl
        (Nat.le_of_ble_eq_true rfl) rfl rfl rfl
  | some head =>
    obtain ⟨first, tbl⟩ := head
    rw [hfirst] at hhead
    obtain ⟨hitem, htbl⟩ : items.head? = some first ∧ TableHolds h.hh h.hashv tbl items := hhead
    obtain ⟨chain, hchain⟩ := htbl.chains
    have htail : some tbl.tail = items.getLast? := htbl.tail.symm
    simp only [htail]
    exact @hashAddItem_holds _ _ _ _ _ _ hmem _ _ _ hh ha hroom k _
      { tbl with tail := a } hchain htbl.pow
      htbl.small htbl.numItems rfl (by rw [List.head?_append, hitem]; rfl)

/-- Ends of the order of insertion without one element. -/
theorem ends_without {m₁ m₂ : List α} {head tail : α} (hnd : (m₁ ++ a :: m₂).Nodup)
    (hhead : (m₁ ++ a :: m₂).head? = some head) (htail : (m₁ ++ a :: m₂).getLast? = some tail) :
    (if a = tail then m₁.getLast? else some tail) = (m₁ ++ m₂).getLast? ∧
      (if m₁.getLast?.isSome then some head else m₂.head?) = (m₁ ++ m₂).head? := by
  constructor
  · cases m₂ with
    | nil =>
      obtain rfl : a = tail := by simpa using htail
      simp
    | cons y m₂ =>
      rw [getLast?_behind] at htail
      have hin : tail ∈ y :: m₂ := List.mem_of_getLast? htail
      have hne : a ≠ tail := by
        rintro rfl
        exact (List.nodup_cons.mp (List.nodup_append.mp hnd).2.1).1 hin
      rw [if_neg hne, List.getLast?_append, htail]
      rfl
  · cases m₁ with
    | nil => simp
    | cons x m₁ =>
      obtain rfl : x = head := by simpa using hhead
      simp [List.getLast?_eq_some_getLast]

/-- A deleted element leaves the others in their order. -/
theorem hashDelete_holds {fcn : κ → ℕ} {h : Hash α κ} {items : List α} (hh : Holds fcn h items)
    (ha : a ∈ items) :
    ∃ h', hashDelete a h = .ok h' ∧ Holds fcn h' (items.erase a) ∧ h'.key = h.key := by
  have hhead := hh.head
  have hnd := hh.nodup
  have hlink := hh.app
  obtain ⟨m₁, m₂, -, hsplit, herase⟩ := List.exists_erase_eq ha
  rw [herase]
  rw [hsplit] at hnd hlink
  obtain ⟨hprev, hnext⟩ := hlink m₁ a m₂ rfl
  have hin : ∀ c ∈ m₁ ++ m₂, c ∈ items := by
    intro c hc
    rw [← herase] at hc
    exact List.mem_of_mem_erase hc
  unfold hashDelete
  cases hfirst : h.head with
  | none =>
    rw [hfirst] at hhead
    obtain rfl : items = [] := hhead
    cases ha
  | some head =>
    obtain ⟨first, tbl⟩ := head
    rw [hfirst] at hhead
    obtain ⟨hitem, htbl⟩ : items.head? = some first ∧ TableHolds h.hh h.hashv tbl items := hhead
    rw [hsplit] at hitem
    have hlast := htbl.tail
    rw [hsplit] at hlast
    obtain ⟨htail, hhead⟩ := ends_without hnd hitem hlast
    simp only [hprev, hnext]
    by_cases hone : m₁.getLast? = none ∧ m₂.head? = none
    · -- the last element takes the table with it
      obtain ⟨rfl, rfl⟩ : m₁ = [] ∧ m₂ = [] := by simpa using hone
      rw [if_pos hone]
      exact ⟨_, rfl, ⟨List.nodup_nil, .nil _, by simp, rfl⟩, rfl⟩
    · have hne : m₁ ++ m₂ ≠ [] := by
        intro hnil
        obtain ⟨rfl, rfl⟩ := List.append_eq_nil_iff.mp hnil
        exact hone ⟨rfl, rfl⟩
      obtain ⟨first', hfirst'⟩ : ∃ x, (m₁ ++ m₂).head? = some x := ⟨_, List.head?_eq_some_head hne⟩
      obtain ⟨last', hlast'⟩ : ∃ x, (m₁ ++ m₂).getLast? = some x :=
        ⟨_, List.getLast?_eq_some_getLast hne⟩
      obtain ⟨chain, hchain⟩ := htbl.chains
      have hlt : h.hashv a%tbl.numBuckets < tbl.numBuckets := Nat.mod_lt _ htbl.pos
      obtain ⟨⟨b, hb, -⟩, -⟩ := hchain.chains _ hlt
      have hbkt : hashToBkt (h.hashv a) tbl.numBuckets = h.hashv a%tbl.numBuckets := by
        rw [htbl.pow, hashToBkt_eq]
      have hdel := hchain.delete hh.nodup ha htbl.pos hb
      rw [herase] at hdel
      have hcount : (tbl.numItems+(2^32-1))%2^32 = (m₁ ++ m₂).length := by
        have hroom := htbl.room
        rw [htbl.numItems, hsplit] at *
        simp only [List.length_append, List.length_cons] at hroom ⊢
        omega
      have hroom : (m₁ ++ m₂).length < 2^32 := by
        rw [← hcount]
        exact Nat.mod_lt _ (by decide)
      rw [if_neg hone, htail, hhead, hfirst', hlast']
      simp only [hashDelInBkt, hbkt, hb, bind, Except.bind]
      refine ⟨_, rfl,
        ⟨?_, hlink.unlink hnd, ?_, hfirst', ⟨_, hdel⟩, htbl.pow, htbl.small, hcount, hroom, hlast'⟩,
        rfl⟩
      · rw [← herase]
        exact hh.nodup.erase a
      · exact fun c hc => hh.hashv c (hin c hc)

/-- An iteration that deletes every element frees each of them once and leaves
no table. -/
theorem hashClear_holds {fcn : κ → ℕ} {h : Hash α κ} {items : List α} {n : ℕ}
    (hh : Holds fcn h items) (hn : items.length ≤ n) :
    ∃ h', hashClear n items.head? (items.head?.bind h.app.next) h = .ok (items, h') ∧
      Holds fcn h' [] ∧
      h'.key = h.key := by
  induction items generalizing h n with
  | nil => exact ⟨h, by cases n <;> rfl, hh, rfl⟩
  | cons a items ih =>
    cases n with
    | zero => simp at hn
    | succ n =>
      obtain ⟨h₁, hdel, hh₁, hkey₁⟩ := hashDelete_holds hh List.mem_cons_self
      rw [List.erase_cons_head] at hh₁
      obtain ⟨h₂, hclear, hh₂, hkey₂⟩ := ih hh₁ (Nat.le_of_succ_le_succ hn)
      refine ⟨h₂, ?_, hh₂, hkey₂.trans hkey₁⟩
      show hashClear (n+1) (some a) (h.app.next a) h = _
      rw [hh.app.head_next]
      simp only [hashClear, hdel, hclear, bind, Except.bind]


end Ucmq.UtHash
