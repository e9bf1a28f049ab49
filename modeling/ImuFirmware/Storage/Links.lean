/-
Chains in a table of links.

Every cell of the table is free, links to another cell, or is the last of its chain.  A
chain cannot come back to itself, since what follows a cell is in the table.  Several
owners hold one chain each; they are `Apart` if no cell is in two of them, and what an
owner does to its own cells and to free ones keeps them so.
-/
import Mathlib.Data.Finset.Card

namespace Storage

variable {α ι : Type}

inductive Link (α : Type) where
  | free
  | next (a : α)
  | last
  | bad
  deriving DecidableEq, Repr

/-- Each cell links to the one after it, and the final one is marked last. -/
def Linked (t : α → Link α) : List α → Prop
  | [] => True
  | [a] => t a = .last
  | a :: b :: l => t a = .next b ∧ Linked t (b :: l)

namespace Linked

variable {t t' : α → Link α} {a b n : α} {l l' r : List α}

theorem tail (h : Linked t (a :: l)) : Linked t l := by
  cases l with
  | nil => trivial
  | cons b l => exact h.2

theorem congr (h : ∀ a ∈ l, t' a = t a) (hl : Linked t l) : Linked t' l := by
  induction l with
  | nil => trivial
  | cons a l ih =>
      have hrest := ih (fun c hc => h c (List.mem_cons_of_mem a hc)) hl.tail
      cases l with
      | nil => exact (h a List.mem_cons_self).trans hl
      | cons b l => exact ⟨(h a List.mem_cons_self).trans hl.1, hrest⟩

/-- A cell of a chain is in use. -/
theorem used (hl : Linked t l) (ha : a ∈ l) : t a = .last ∨ ∃ b ∈ l, t a = .next b := by
  induction l with
  | nil => cases ha
  | cons c l ih =>
      obtain rfl | ha := List.mem_cons.mp ha
      · cases l with
        | nil => exact Or.inl hl
        | cons b l => exact Or.inr ⟨b, by simp, hl.1⟩
      · obtain h | ⟨b, hb, h⟩ := ih hl.tail ha
        · exact Or.inl h
        · exact Or.inr ⟨b, List.mem_cons_of_mem c hb, h⟩

theorem not_free (hl : Linked t l) (ha : a ∈ l) : t a ≠ .free := by
  intro hfree
  obtain h | ⟨b, -, h⟩ := hl.used ha
  · cases h.symm.trans hfree
  · cases h.symm.trans hfree

theorem append_right (h : Linked t (l ++ r)) : Linked t r := by
  induction l with
  | nil => exact h
  | cons a l ih => exact ih h.tail

/-- What follows a cell is in the table. -/
theorem unique (h : Linked t (a :: l)) (h' : Linked t (a :: l')) : l = l' := by
  induction l generalizing a l' with
  | nil =>
      cases l' with
      | nil => rfl
      | cons b l' =>
          have hend : Link.last = .next b := Eq.trans (Eq.symm h) h'.1
          cases hend
  | cons b l ih =>
      cases l' with
      | nil =>
          have hend : Link.last = .next b := Eq.trans (Eq.symm h') h.1
          cases hend
      | cons b' l' =>
          have hsame := h.1.symm.trans h'.1
          cases hsame
          rw [ih h.2 h'.2]

theorem nodup (hl : Linked t l) : l.Nodup := by
  induction l with
  | nil => exact List.nodup_nil
  | cons a l ih =>
      refine List.nodup_cons.mpr ⟨fun ha => ?_, ih hl.tail⟩
      obtain ⟨s, r, rfl⟩ := List.append_of_mem ha
      -- the chain from the second visit is the chain from the first
      have hagain : Linked t (a :: r) := hl.tail.append_right
      have hlen := congrArg List.length (hl.unique hagain)
      rw [List.length_append, List.length_cons] at hlen
      omega

theorem next_mem (hl : Linked t l) (ha : a ∈ l) (h : t a = .next b) : b ∈ l := by
  obtain h' | ⟨c, hc, h'⟩ := hl.used ha
  · cases h.symm.trans h'
  · cases h.symm.trans h'
    exact hc

/-- A cell marked last is the end of its chain. -/
theorem eq_end (hl : Linked t l) (ha : a ∈ l) (h : t a = .last) : ∃ p, l = p ++ [a] := by
  obtain ⟨p, r, rfl⟩ := List.append_of_mem ha
  have hsuffix := hl.append_right
  cases r with
  | nil => exact ⟨p, rfl⟩
  | cons b r => cases h.symm.trans hsuffix.1

/-- The cell behind one that is not the end. -/
theorem next_eq (hl : Linked t (l ++ a :: b :: r)) : t a = .next b :=
  hl.append_right.1

theorem last_eq (hl : Linked t (l ++ [a])) : t a = .last :=
  hl.append_right

/-- The links of a chain by position. -/
theorem getElem_next (hl : Linked t l) {j : Nat} (hj : j + 1 < l.length) :
    t l[j] = .next l[j + 1] := by
  induction l generalizing j with
  | nil => exact absurd hj (Nat.not_lt_zero _)
  | cons a l ih =>
      cases l with
      | nil => exact absurd hj (by simp)
      | cons b l =>
          cases j with
          | zero => exact hl.1
          | succ j => exact ih hl.2 (Nat.lt_of_succ_lt_succ hj)

theorem getElem_last (hl : Linked t l) {j : Nat} (hlt : j < l.length) (hj : j + 1 = l.length) :
    t l[j] = .last := by
  induction l generalizing j with
  | nil => cases hj
  | cons a l ih =>
      cases l with
      | nil =>
          obtain rfl : j = 0 := by simpa using hj
          exact hl
      | cons b l =>
          cases j with
          | zero => simp at hj
          | succ j => exact ih hl.2 (Nat.lt_of_succ_lt_succ hlt) (Nat.succ.inj hj)

variable [DecidableEq α]

theorem single (t : α → Link α) (a : α) : Linked (Function.update t a .last) [a] :=
  Function.update_self ..

/-- A cell marked last is linked to the end of a chain. -/
theorem extend (hl : Linked t (l ++ [a])) (hn : n ∉ l ++ [a]) :
    Linked (Function.update (Function.update t n .last) a (.next n)) (l ++ [a, n]) := by
  induction l with
  | nil =>
      have hne : n ≠ a := fun he => hn (by rw [he]; exact List.mem_cons_self)
      refine ⟨Function.update_self .., ?_⟩
      show Function.update _ a _ n = _
      rw [Function.update_of_ne hne, Function.update_self]
  | cons b l ih =>
      have hrest := ih hl.tail (fun hm => hn (List.mem_cons_of_mem b hm))
      have hb : b ≠ a := by
        rintro rfl
        have := hl.nodup
        simp at this
      have hbn : b ≠ n := fun he => hn (by rw [he]; exact List.mem_cons_self)
      have hkept : Function.update (Function.update t n .last) a (.next n) b = t b := by
        rw [Function.update_of_ne hb, Function.update_of_ne hbn]
      cases l with
      | nil => exact ⟨hkept.trans hl.1, hrest⟩
      | cons c l => exact ⟨hkept.trans hl.1, hrest⟩

/-- A chain is cut behind one of its cells. -/
theorem cut (hl : Linked t (l ++ a :: r)) :
    Linked (Function.update t a .last) (l ++ [a]) := by
  induction l with
  | nil => exact single t a
  | cons b l ih =>
      have hb : b ≠ a := by
        rintro rfl
        have := hl.nodup
        simp at this
      have hkept : Function.update t a .last b = t b := Function.update_of_ne hb ..
      have hrest := ih hl.tail
      cases l with
      | nil => exact ⟨hkept.trans hl.1, hrest⟩
      | cons c l => exact ⟨hkept.trans hl.1, hrest⟩

end Linked

/-! ## Freeing cells -/

section freed

variable [DecidableEq α] {t : α → Link α} {a c : α} {l : List α} {s : Finset α}

def freed (t : α → Link α) (l : List α) (a : α) : Link α := if a ∈ l then .free else t a

theorem freed_of_mem (h : a ∈ l) : freed t l a = .free := if_pos h

theorem freed_of_notMem (h : a ∉ l) : freed t l a = t a := if_neg h

theorem freed_update (t : α → Link α) (c : α) (l : List α) :
    freed (Function.update t c .free) l = freed t (c :: l) := by
  funext a
  by_cases ha : a ∈ l
  · rw [freed_of_mem ha, freed_of_mem (List.mem_cons_of_mem c ha)]
  · rw [freed_of_notMem ha]
    by_cases hc : a = c
    · subst hc
      rw [Function.update_self, freed_of_mem List.mem_cons_self]
    · have hnot : a ∉ c :: l := fun h => ha ((List.mem_cons.mp h).resolve_left hc)
      rw [Function.update_of_ne hc, freed_of_notMem hnot]

/-- The free cells of a set. -/
def freeCells (s : Finset α) (t : α → Link α) : Finset α := s.filter fun a => t a = .free

theorem freeCells_free (s : Finset α) (t : α → Link α) (hc : c ∈ s) :
    freeCells s (Function.update t c .free) = insert c (freeCells s t) := by
  ext a
  simp only [freeCells, Finset.mem_filter, Finset.mem_insert]
  by_cases ha : a = c
  · subst ha
    simp [hc]
  · simp [ha]

theorem freeCells_take (s : Finset α) {x : Link α} (hx : x ≠ .free) (t : α → Link α) (c : α) :
    freeCells s (Function.update t c x) = (freeCells s t).erase c := by
  ext a
  simp only [freeCells, Finset.mem_filter, Finset.mem_erase]
  by_cases ha : a = c
  · subst ha
    simp [hx]
  · simp [ha]

/-- Freeing a cell in use gives one more free cell. -/
theorem card_freeCells_free (hc : c ∈ s) (h : t c ≠ .free) :
    (freeCells s (Function.update t c .free)).card = (freeCells s t).card + 1 := by
  rw [freeCells_free s t hc]
  refine Finset.card_insert_of_notMem fun hmem => h ?_
  exact (Finset.mem_filter.mp hmem).2

/-- Taking a free cell leaves one free cell less. -/
theorem card_freeCells_take {x : Link α} (hx : x ≠ .free) (hc : c ∈ s) (h : t c = .free) :
    (freeCells s (Function.update t c x)).card + 1 = (freeCells s t).card := by
  rw [freeCells_take s hx]
  exact Finset.card_erase_add_one (Finset.mem_filter.mpr ⟨hc, h⟩)

/-- Between links of cells in use the free cells stay. -/
theorem freeCells_relink (s : Finset α) {x : Link α} (hx : x ≠ .free) (h : t c ≠ .free) :
    freeCells s (Function.update t c x) = freeCells s t := by
  rw [freeCells_take s hx]
  exact Finset.erase_eq_of_notMem fun hmem => h (Finset.mem_filter.mp hmem).2

end freed

/-! ## Chains of several owners -/

/-- Every owner holds a chain, and no cell is in two of them. -/
structure Apart (t : α → Link α) (chains : ι → List α) : Prop where
  linked : ∀ i, Linked t (chains i)
  disjoint : ∀ i j, i ≠ j → ∀ a ∈ chains i, a ∉ chains j

namespace Apart

variable {t t' : α → Link α} {chains : ι → List α} {i : ι} {l : List α}

theorem empty (t : α → Link α) : Apart t fun _ : ι => [] :=
  ⟨fun _ => trivial, fun _ _ _ _ ha => absurd ha List.not_mem_nil⟩

theorem congr (h : ∀ i, ∀ a ∈ chains i, t' a = t a) (hs : Apart t chains) : Apart t' chains :=
  ⟨fun i => (hs.linked i).congr (h i), hs.disjoint⟩

/-- The table changes in cells no owner has. -/
theorem of_free [DecidableEq α] (hs : Apart t chains) {n : α} (hn : t n = .free) (x : Link α) :
    Apart (Function.update t n x) chains := by
  refine hs.congr fun i a ha => Function.update_of_ne ?_ ..
  rintro rfl
  exact (hs.linked i).not_free ha hn

variable [DecidableEq ι]

/-- One owner changes its chain, and the table only where no other has a cell. -/
theorem change (hs : Apart t chains) (hl : Linked t' l)
    (hkept : ∀ j, j ≠ i → ∀ a ∈ chains j, t' a = t a)
    (hown : ∀ a ∈ l, a ∈ chains i ∨ t a = .free) :
    Apart t' (Function.update chains i l) := by
  have hout : ∀ j, j ≠ i → ∀ a ∈ l, a ∉ chains j := by
    intro j hj a ha hmem
    obtain h | h := hown a ha
    · exact hs.disjoint i j hj.symm a h hmem
    · exact (hs.linked j).not_free hmem h
  refine ⟨fun j => ?_, fun j k hjk a ha hb => ?_⟩
  · by_cases hj : j = i
    · subst hj
      rw [Function.update_self]
      exact hl
    · rw [Function.update_of_ne hj]
      exact (hs.linked j).congr (hkept j hj)
  · by_cases hj : j = i
    · subst hj
      rw [Function.update_self] at ha
      rw [Function.update_of_ne hjk.symm] at hb
      exact hout k hjk.symm a ha hb
    · rw [Function.update_of_ne hj] at ha
      by_cases hk : k = i
      · subst hk
        rw [Function.update_self] at hb
        exact hout j hj a hb ha
      · rw [Function.update_of_ne hk] at hb
        exact hs.disjoint j k hjk a ha hb

end Apart

end Storage
