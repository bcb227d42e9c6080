import Mathlib.Data.List.Induction
import Mathlib.Logic.Function.Basic

/-!
# Doubly linked lists

The elements of a store carry two link fields, and a list is linked when every
element of it points to its neighbours. Linking an element at either end and
unlinking one from the middle change the fields of at most two neighbours, so
that a list without these keeps its links.
-/

namespace Ucmq.LinkedChain

/-- Link fields of the elements of a store. -/
structure Links (α : Type*) where
  /-- Element behind. -/
  next : α → Option α
  /-- Element before. -/
  prev : α → Option α

variable {α : Type*}

/-- Every element of the list points to its neighbours. -/
def Linked (L : Links α) (l : List α) : Prop :=
  ∀ l₁ a l₂, l = l₁ ++ a :: l₂ → L.prev a = l₁.getLast? ∧ L.next a = l₂.head?

/-- The empty list is linked. -/
theorem Linked.nil (L : Links α) : Linked L [] := by
  intro l₁ a l₂ h
  simp at h

/-- Links that agree on a list link it alike. -/
theorem Linked.congr {L L' : Links α} {l : List α} (h : Linked L l)
    (hagree : ∀ a ∈ l, L'.prev a = L.prev a ∧ L'.next a = L.next a) : Linked L' l := by
  intro l₁ a l₂ hl
  obtain ⟨hp, hn⟩ := hagree a (by simp [hl])
  rw [hp, hn]
  exact h l₁ a l₂ hl

/-- The neighbours of an element of a linked list are elements of it. -/
theorem Linked.mem_of_link {L : Links α} {l : List α} (h : Linked L l) {a b : α} (ha : a ∈ l)
    (hb : L.prev a = some b ∨ L.next a = some b) : b ∈ l := by
  obtain ⟨l₁, l₂, rfl⟩ := List.append_of_mem ha
  obtain ⟨hprev, hnext⟩ := h l₁ a l₂ rfl
  rcases hb with hb | hb
  · rw [hprev] at hb
    exact List.mem_append_left _ (List.mem_of_getLast? hb)
  · rw [hnext] at hb
    exact List.mem_append_right _ (List.mem_cons_of_mem a (List.mem_of_head? hb))

/-- The first element points to the second one. -/
theorem Linked.head_next {L : Links α} {a : α} {l : List α} (h : Linked L (a :: l)) :
    L.next a = l.head? :=
  (h [] a l rfl).2

/-- Following the next fields from a pointer visits the list and ends. -/
def Walks (next : α → Option α) : Option α → List α → Prop
  | p, [] => p = none
  | p, a :: l => p = some a ∧ Walks next (next a) l

/-- A walk depends on the fields of its elements only. -/
theorem Walks.congr {next next' : α → Option α} {p : Option α} {l : List α} (h : Walks next p l)
    (hagree : ∀ a ∈ l, next' a = next a) : Walks next' p l := by
  induction l generalizing p with
  | nil => exact h
  | cons a l ih =>
    refine ⟨h.1, ?_⟩
    rw [hagree a List.mem_cons_self]
    exact ih h.2 fun b hb => hagree b (List.mem_cons_of_mem a hb)

/-- The part of a linked list from any place on is walked. -/
theorem Linked.walks_of_append {L : Links α} {l₁ l₂ : List α} (h : Linked L (l₁ ++ l₂)) :
    Walks L.next l₂.head? l₂ := by
  induction l₂ generalizing l₁ with
  | nil => rfl
  | cons a l₂ ih =>
    refine ⟨rfl, ?_⟩
    rw [(h l₁ a l₂ rfl).2]
    have happ : Linked L ((l₁ ++ [a]) ++ l₂) := by rwa [List.append_assoc, List.singleton_append]
    exact ih happ

/-- A linked list is walked from its first element. -/
theorem Linked.walks {L : Links α} {l : List α} (h : Linked L l) : Walks L.next l.head? l :=
  @Linked.walks_of_append _ L [] l h

/-- An element that a list does not hold is not its first. -/
theorem head?_ne {a : α} {l : List α} (h : a ∉ l) : l.head? ≠ some a := by
  intro heq
  exact h (List.mem_of_head? heq)

/-- An element that a list does not hold is not its last. -/
theorem getLast?_ne {a : α} {l : List α} (h : a ∉ l) : l.getLast? ≠ some a := by
  intro heq
  exact h (List.mem_of_getLast? heq)

/-- The last element of a list is that of any part behind it that is not empty. -/
theorem getLast?_behind (l : List α) (b y : α) (c : List α) :
    (l ++ b :: y :: c).getLast? = (y :: c).getLast? := by
  rw [List.getLast?_append, List.getLast?_cons_cons,
    List.getLast?_eq_some_getLast (List.cons_ne_nil y c)]
  rfl

section Operations

variable [DecidableEq α]

/-- Write a next field; nothing for a null pointer. -/
def Links.setNext (L : Links α) (p : Option α) (x : Option α) : Links α :=
  match p with
  | none => L
  | some a => { L with next := Function.update L.next a x }

/-- Write a prev field; nothing for a null pointer. -/
def Links.setPrev (L : Links α) (p : Option α) (x : Option α) : Links α :=
  match p with
  | none => L
  | some a => { L with prev := Function.update L.prev a x }

/-- Setting a next pointer keeps the previous ones. -/
@[simp] theorem Links.setNext_prev (L : Links α) (p x : Option α) :
    (L.setNext p x).prev = L.prev := by
  cases p <;> rfl

/-- Setting a previous pointer keeps the next ones. -/
@[simp] theorem Links.setPrev_next (L : Links α) (p x : Option α) :
    (L.setPrev p x).next = L.next := by
  cases p <;> rfl

/-- The next pointers after one is set. -/
theorem Links.setNext_next (L : Links α) (p x : Option α) (b : α) :
    (L.setNext p x).next b = if p = some b then x else L.next b := by
  cases p with
  | none => rfl
  | some a => simp [Links.setNext, Function.update_apply, eq_comm]

/-- The previous pointers after one is set. -/
theorem Links.setPrev_prev (L : Links α) (p x : Option α) (b : α) :
    (L.setPrev p x).prev b = if p = some b then x else L.prev b := by
  cases p with
  | none => rfl
  | some a => simp [Links.setPrev, Function.update_apply, eq_comm]

/-- Link an element before the head of a list. -/
def Links.pushFront (L : Links α) (a : α) (head : Option α) : Links α :=
  ((L.setNext (some a) head).setPrev (some a) none).setPrev head (some a)

/-- Link an element behind the tail of a list. -/
def Links.pushBack (L : Links α) (a : α) (tail : Option α) : Links α :=
  ((L.setNext (some a) none).setNext tail (some a)).setPrev (some a) tail

/-- Take an element out of its list. -/
def Links.unlink (L : Links α) (a : α) : Links α :=
  (L.setNext (L.prev a) (L.next a)).setPrev (L.next a) (L.prev a)

/-- The next pointers after an element is unlinked. -/
theorem Links.unlink_next (L : Links α) (a b : α) :
    (L.unlink a).next b = if L.prev a = some b then L.next a else L.next b := by
  rw [Links.unlink, Links.setPrev_next, Links.setNext_next]

/-- The previous pointers after an element is unlinked. -/
theorem Links.unlink_prev (L : Links α) (a b : α) :
    (L.unlink a).prev b = if L.next a = some b then L.prev a else L.prev b := by
  rw [Links.unlink, Links.setPrev_prev, Links.setNext_prev]

variable {L : Links α} {a : α} {l : List α}

/-- An element linked before the head is the first of the list. -/
theorem Linked.pushFront (h : Linked L l) (hnd : l.Nodup) (ha : a ∉ l) :
    Linked (L.pushFront a l.head?) (a :: l) := by
  intro l₁ b l₂ hl
  have hprev : (L.pushFront a l.head?).prev b =
      if l.head? = some b then some a else if a = b then none else L.prev b := by
    simp [Links.pushFront, Links.setPrev_prev]
  have hnext : (L.pushFront a l.head?).next b = if a = b then l.head? else L.next b := by
    simp [Links.pushFront, Links.setNext_next]
  rw [hprev, hnext]
  cases l₁ with
  | nil =>
    obtain ⟨rfl, rfl⟩ : a = b ∧ l = l₂ := by simpa using hl
    rw [if_neg (head?_ne ha), if_pos rfl, if_pos rfl]
    exact ⟨rfl, rfl⟩
  | cons x l₁ =>
    obtain ⟨rfl, rfl⟩ : a = x ∧ l = l₁ ++ b :: l₂ := by simpa using hl
    have hab : a ≠ b := by
      rintro rfl
      simp at ha
    obtain ⟨hp, hn⟩ := h l₁ b l₂ rfl
    rw [if_neg hab, if_neg hab, hp, hn]
    refine ⟨?_, rfl⟩
    cases l₁ with
    | nil => simp
    | cons y l₁ =>
      have hyb : y ≠ b := by
        rintro rfl
        simp at hnd
      rw [if_neg (by simpa using hyb)]
      simp [List.getLast?_cons_cons]

/-- An element linked behind the tail is the last of the list. -/
theorem Linked.pushBack (h : Linked L l) (hnd : l.Nodup) (ha : a ∉ l) :
    Linked (L.pushBack a l.getLast?) (l ++ [a]) := by
  intro l₁ b l₂ hl
  have hprev : (L.pushBack a l.getLast?).prev b = if a = b then l.getLast? else L.prev b := by
    simp [Links.pushBack, Links.setPrev_prev]
  have hnext : (L.pushBack a l.getLast?).next b =
      if l.getLast? = some b then some a else if a = b then none else L.next b := by
    simp [Links.pushBack, Links.setNext_next]
  rw [hprev, hnext]
  induction l₂ using List.reverseRecOn with
  | nil =>
    obtain ⟨rfl, rfl⟩ : l = l₁ ∧ a = b := by simpa using hl
    rw [if_pos rfl, if_neg (getLast?_ne ha), if_pos rfl]
    exact ⟨rfl, rfl⟩
  | append_singleton l₂ x =>
    obtain ⟨rfl, rfl⟩ : l = l₁ ++ b :: l₂ ∧ a = x := by
      rw [← List.cons_append, ← List.append_assoc] at hl
      exact List.append_inj' hl rfl |>.imp_right (by simp)
    have hab : a ≠ b := by
      rintro rfl
      simp at ha
    obtain ⟨hp, hn⟩ := h l₁ b l₂ rfl
    rw [if_neg hab, if_neg hab, hp, hn]
    refine ⟨rfl, ?_⟩
    cases l₂ with
    | nil => simp
    | cons y l₂ =>
      have hb : b ∉ y :: l₂ := by
        have hnd' := (List.nodup_append.mp hnd).2.1
        exact (List.nodup_cons.mp hnd').1
      rw [getLast?_behind, if_neg (getLast?_ne hb)]
      simp

/-- Unlinking takes the element out of the list and joins its neighbours. -/
theorem Linked.unlink {m₁ m₂ : List α} (h : Linked L (m₁ ++ a :: m₂))
    (hnd : (m₁ ++ a :: m₂).Nodup) :
    Linked (L.unlink a) (m₁ ++ m₂) := by
  obtain ⟨hpa, hna⟩ := h m₁ a m₂ rfl
  obtain ⟨hnd₁, hnd₂, hdisj⟩ := List.nodup_append.mp hnd
  intro l₁ b l₂ hl
  rw [Links.unlink_next, Links.unlink_prev, hpa, hna]
  rcases List.append_eq_append_iff.mp hl with ⟨c, hc₁, hc₂⟩ | ⟨c, hc₁, hc₂⟩
  · -- the element looked at stands behind the unlinked one
    subst hc₁
    have hb₂ : b ∈ m₂ := by rw [hc₂]; simp
    have hb₁ : b ∉ m₁ := fun hm => hdisj b hm b (List.mem_cons_of_mem a hb₂) rfl
    obtain ⟨hp, hn⟩ := h (m₁ ++ a :: c) b l₂ (by rw [hc₂]; simp)
    rw [if_neg (getLast?_ne hb₁), hn, hp]
    refine ⟨?_, rfl⟩
    cases c with
    | nil =>
      rw [hc₂]
      simp
    | cons y c =>
      have hyb : y ≠ b := by
        rintro rfl
        rw [hc₂] at hnd₂
        simp at hnd₂
      have hm : m₂.head? ≠ some b := by
        rw [hc₂]
        simpa using hyb
      rw [if_neg hm]
      simp [List.getLast?_append, List.getLast?_cons_cons]
  · cases c with
    | nil =>
      -- the element looked at is the first behind the unlinked one
      obtain ⟨rfl, rfl⟩ : m₁ = l₁ ∧ m₂ = b :: l₂ := by
        rw [List.append_nil] at hc₁
        exact ⟨hc₁, by simpa using hc₂.symm⟩
      have hb₁ : b ∉ m₁ := fun hm => hdisj b hm b (by simp) rfl
      obtain ⟨-, hn⟩ := h (m₁ ++ [a]) b l₂ (by simp)
      rw [if_neg (getLast?_ne hb₁), hn]
      simp
    | cons x c =>
      -- the element looked at stands before the unlinked one
      obtain ⟨rfl, rfl⟩ : b = x ∧ l₂ = c ++ m₂ := by simpa using hc₂
      have hb₁ : b ∈ m₁ := by rw [hc₁]; simp
      have hb₂ : b ∉ m₂ := fun hm => hdisj b hb₁ b (List.mem_cons_of_mem a hm) rfl
      obtain ⟨hp, hn⟩ := h l₁ b (c ++ a :: m₂) (by rw [hc₁]; simp)
      rw [if_neg (head?_ne hb₂), hn, hp]
      refine ⟨rfl, ?_⟩
      cases c with
      | nil =>
        rw [hc₁]
        simp
      | cons y c =>
        have hlast : m₁.getLast? = (y :: c).getLast? := by rw [hc₁, getLast?_behind]
        have hb : b ∉ y :: c := by
          rw [hc₁] at hnd₁
          exact (List.nodup_cons.mp (List.nodup_append.mp hnd₁).2.1).1
        rw [hlast, if_neg (getLast?_ne hb)]
        simp

end Operations

end Ucmq.LinkedChain
