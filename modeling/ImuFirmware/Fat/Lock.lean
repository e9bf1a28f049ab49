/-
The table of open objects, with `_FS_LOCK`.

Every open file or directory has an entry, which counts those who read it or is marked by
the one who writes.  Whatever is opened and closed in whatever order, who writes to an
object has it alone, as long as no object is open for reading 256 times.
-/
import ImuFirmware.Fat.Volume
import Mathlib.Data.Fintype.Card
import Mathlib.Data.List.FinRange
import Mathlib.Logic.Relation

namespace ImuFirmware
namespace Fat

/-- `_FS_LOCK`. -/
abbrev fsLock : Nat := 10

/-- What an object is known by: its volume, 0 for none, its directory and its place there. -/
structure Object where
  fs : Nat
  clu : Nat
  idx : Nat
  deriving DecidableEq

/-- A FILESEM.  With `fs` 0 it is blank. -/
structure FileSem where
  object : Object
  ctr : Nat
  deriving DecidableEq

/-- `Files`. -/
abbrev Locks := Fin fsLock → FileSem

namespace Locks

/-- The first entry of a kind. -/
def find (t : Locks) (p : FileSem → Prop) [DecidablePred p] : Option (Fin fsLock) :=
  (List.finRange fsLock).find? fun i => p (t i)

def blank (t : Locks) (i : Fin fsLock) : Prop := (t i).object.fs = 0

instance (t : Locks) (i : Fin fsLock) : Decidable (t.blank i) :=
  inferInstanceAs (Decidable (_ = _))

def setCtr (t : Locks) (i : Fin fsLock) (n : Nat) : Locks :=
  Function.update t i { t i with ctr := n }

end Locks

/-- `chk_lock`, with 0 for reading, 1 for writing and 2 for removal. -/
def chkLock (t : Locks) (dp : Object) (acc : Nat) : FResult :=
  match t.find fun s => s.object.fs ≠ 0 ∧ s.object = dp with
  | none => if (∃ i, t.blank i) ∨ acc = 2 then .ok else .tooManyOpenFiles
  | some i => if acc ≠ 0 ∨ (t i).ctr = 0x100 then .locked else .ok

/-- `enq_lock`. -/
def enqLock (t : Locks) : Bool := (t.find fun s => s.object.fs = 0).isSome

/-- The end of `inc_lock`, with the entry. -/
def raiseLock (t : Locks) (i : Fin fsLock) (acc : Nat) : Option (Fin fsLock) × Locks :=
  if acc ≠ 0 ∧ (t i).ctr ≠ 0 then (none, t)
  else
    (some i, t.setCtr i (if acc ≠ 0 then 0x100 else ((t i).ctr + 1) % 2 ^ 16))

/-- `inc_lock`.  It returns the entry's index and one, and 0 for none. -/
def incLock (t : Locks) (dp : Object) (acc : Nat) : Option (Fin fsLock) × Locks :=
  match t.find fun s => s.object = dp with
  | some i => raiseLock t i acc
  | none =>
      match t.find fun s => s.object.fs = 0 with
      | none => (none, t)
      | some i => raiseLock (Function.update t i ⟨dp, 0⟩) i acc

/-- What `dec_lock` counts down to. -/
def lowered (ctr : Nat) : Nat := (if ctr = 0x100 then 0 else ctr) - 1

/-- The entry that `dec_lock` leaves. -/
def FileSem.lower (s : FileSem) : FileSem :=
  ⟨if lowered s.ctr = 0 then { s.object with fs := 0 } else s.object, lowered s.ctr⟩

/-- `dec_lock`, for what `inc_lock` returned. -/
def decLock (t : Locks) (i : Nat) : FResult × Locks :=
  if h : 0 < i ∧ i - 1 < fsLock then
    (.ok, Function.update t ⟨i - 1, h.2⟩ (t ⟨i - 1, h.2⟩).lower)
  else (.intErr, t)

/-- `clear_lock`. -/
def clearLock (t : Locks) (fs : Nat) : Locks := fun i =>
  if (t i).object.fs = fs then { t i with object := { (t i).object with fs := 0 } } else t i

/-! ## Open objects -/

/-- An open file or directory, with its entry. -/
structure Handle where
  object : Object
  write : Bool
  slot : Fin fsLock
  deriving DecidableEq

/-- How many of the handles read through an entry. -/
def readers (hs : List Handle) (i : Fin fsLock) : Nat :=
  hs.countP fun h => h.slot = i ∧ h.write = false

def writers (hs : List Handle) (i : Fin fsLock) : Nat :=
  hs.countP fun h => h.slot = i ∧ h.write = true

/-- What an entry counts. -/
def Counts (s : FileSem) (r w : Nat) : Prop :=
  (s.object.fs = 0 ∧ r = 0 ∧ w = 0) ∨
    (s.object.fs ≠ 0 ∧ 0 < s.ctr ∧ s.ctr < 0x100 ∧ r = s.ctr ∧ w = 0) ∨
    (s.object.fs ≠ 0 ∧ s.ctr = 0x100 ∧ r = 0 ∧ w = 1)

/-- The table counts the handles. -/
structure Tallied (t : Locks) (hs : List Handle) : Prop where
  own : ∀ h ∈ hs, (t h.slot).object = h.object
  apart : ∀ i j, (t i).object.fs ≠ 0 → (t i).object = (t j).object → i = j
  counts : ∀ i, Counts (t i) (readers hs i) (writers hs i)

variable {t t' : Locks} {hs hs' : List Handle} {h : Handle} {dp : Object} {i j : Fin fsLock}
  {acc : Nat}

namespace Locks

@[simp] theorem setCtr_object (t : Locks) (i : Fin fsLock) (n : Nat) (k : Fin fsLock) :
    (t.setCtr i n k).object = (t k).object := by
  by_cases hk : k = i
  · rw [hk, setCtr, Function.update_self]
  · rw [setCtr, Function.update_of_ne hk]

@[simp] theorem setCtr_self (t : Locks) (i : Fin fsLock) (n : Nat) : (t.setCtr i n i).ctr = n := by
  rw [setCtr, Function.update_self]

theorem setCtr_of_ne (t : Locks) (n : Nat) (h : j ≠ i) : t.setCtr i n j = t j :=
  Function.update_of_ne h ..

theorem find_eq_some {p : FileSem → Prop} [DecidablePred p] (hf : t.find p = some i) :
    p (t i) := by
  have hp := List.find?_some hf
  simpa using hp

theorem find_eq_none {p : FileSem → Prop} [DecidablePred p] (hf : t.find p = none)
    (i : Fin fsLock) : ¬p (t i) := by
  have hp := List.find?_eq_none.mp hf i (List.mem_finRange i)
  simpa using hp

end Locks

theorem Tallied.used (ht : Tallied t hs) (hh : h ∈ hs) : (t h.slot).object.fs ≠ 0 := by
  intro hzero
  obtain ⟨-, hr, hw⟩ | ⟨hsome, -⟩ | ⟨hsome, -⟩ := ht.counts h.slot
  · cases hwr : h.write with
    | false => exact List.countP_eq_zero.mp hr h hh (by simp [hwr])
    | true => exact List.countP_eq_zero.mp hw h hh (by simp [hwr])
  · exact hsome hzero
  · exact hsome hzero

theorem exists_writer (hw : 0 < writers hs i) : ∃ h ∈ hs, h.slot = i ∧ h.write = true := by
  obtain ⟨h, hh, hp⟩ := List.countP_pos_iff.mp hw
  exact ⟨h, hh, by simpa using hp⟩

theorem exists_reader (hr : 0 < readers hs i) : ∃ h ∈ hs, h.slot = i ∧ h.write = false := by
  obtain ⟨h, hh, hp⟩ := List.countP_pos_iff.mp hr
  exact ⟨h, hh, by simpa using hp⟩

/-- No entry is in use for nothing. -/
theorem Tallied.exists_handle (ht : Tallied t hs) (hsome : (t i).object.fs ≠ 0) :
    ∃ h ∈ hs, h.slot = i := by
  obtain ⟨hzero, -⟩ | ⟨-, hpos, -, hr, -⟩ | ⟨-, -, -, hw⟩ := ht.counts i
  · exact absurd hzero hsome
  · obtain ⟨h, hh, hslot, -⟩ := exists_reader (hr ▸ hpos)
    exact ⟨h, hh, hslot⟩
  · obtain ⟨h, hh, hslot, -⟩ := exists_writer (hw ▸ Nat.one_pos)
    exact ⟨h, hh, hslot⟩

/-! ## Opening -/

/-- How many handles an object has. -/
def opened (hs : List Handle) (dp : Object) : Nat := hs.countP fun h => h.object = dp

/-- The table with an entry that is about to be raised for one more handle. -/
structure Pending (t : Locks) (hs : List Handle) (i : Fin fsLock) : Prop where
  own : ∀ h ∈ hs, (t h.slot).object = h.object
  apart : ∀ j k, (t j).object.fs ≠ 0 → (t j).object = (t k).object → j = k
  counts : ∀ j, j ≠ i → Counts (t j) (readers hs j) (writers hs j)
  some : (t i).object.fs ≠ 0
  read : (t i).ctr < 0x100 ∧ readers hs i = (t i).ctr ∧ writers hs i = 0

theorem readers_cons (h : Handle) (hs : List Handle) (i : Fin fsLock) :
    readers (h :: hs) i = readers hs i + if h.slot = i ∧ h.write = false then 1 else 0 := by
  simp [readers, List.countP_cons]

theorem writers_cons (h : Handle) (hs : List Handle) (i : Fin fsLock) :
    writers (h :: hs) i = writers hs i + if h.slot = i ∧ h.write = true then 1 else 0 := by
  simp [writers, List.countP_cons]

/-- An entry whose handles all read counts no more than its object has. -/
theorem readers_le_opened (hown : ∀ h ∈ hs, (t h.slot).object = h.object) (i : Fin fsLock) :
    readers hs i ≤ opened hs (t i).object := by
  refine List.countP_mono_left fun h hh hp => ?_
  have hslot : h.slot = i ∧ h.write = false := by simpa using hp
  have hobj := hown h hh
  rw [hslot.1] at hobj
  simp [hobj]

theorem raise_tallied (hp : Pending t hs i) (hacc : acc ≠ 0 → (t i).ctr = 0)
    (hfew : acc = 0 → opened hs (t i).object < 255) :
    ∃ t', raiseLock t i acc = (some i, t') ∧
      Tallied t' (⟨(t i).object, decide (acc ≠ 0), i⟩ :: hs) := by
  obtain ⟨hlt, hr, hw⟩ := hp.read
  have hle := readers_le_opened hp.own i
  unfold raiseLock
  rw [if_neg fun h => h.2 (hacc h.1)]
  refine ⟨_, rfl, fun h hh => ?_, fun j k hj hjk => ?_, fun j => ?_⟩
  · rw [Locks.setCtr_object]
    obtain rfl | hh := List.mem_cons.mp hh
    · rfl
    · exact hp.own h hh
  · rw [Locks.setCtr_object] at hj hjk
    rw [Locks.setCtr_object] at hjk
    exact hp.apart j k hj hjk
  · rw [readers_cons, writers_cons]
    by_cases hj : j = i
    · subst hj
      unfold Counts
      rw [Locks.setCtr_object, Locks.setCtr_self]
      by_cases hzero : acc = 0
      · have := hfew hzero
        simp only [hzero, ne_eq, not_true_eq_false, decide_false, if_true, if_false, and_self,
          and_false, Bool.false_eq_true, reduceCtorEq]
        exact Or.inr (Or.inl ⟨hp.some, by omega⟩)
      · have := hacc hzero
        simp only [hzero, ne_eq, not_false_eq_true, decide_true, if_true, if_false, and_self,
          and_false, Bool.true_eq_false, reduceCtorEq]
        exact Or.inr (Or.inr ⟨hp.some, trivial, by omega, by omega⟩)
    · rw [Locks.setCtr_of_ne _ _ hj, if_neg fun h => hj h.1.symm, if_neg fun h => hj h.1.symm]
      exact hp.counts j hj

/-- A blank entry that is made an object's. -/
theorem Tallied.pending_new (ht : Tallied t hs) (hblank : t.blank i) (hfs : dp.fs ≠ 0)
    (hnone : ∀ j, (t j).object ≠ dp) : Pending (Function.update t i ⟨dp, 0⟩) hs i := by
  have hslot : ∀ h ∈ hs, h.slot ≠ i := fun h hh he => ht.used hh (he ▸ hblank)
  refine ⟨fun h hh => ?_, fun j k hj hjk => ?_, fun j hj => ?_, ?_, ?_⟩
  · rw [Function.update_of_ne (hslot h hh)]
    exact ht.own h hh
  · by_cases hji : j = i <;> by_cases hki : k = i
    · rw [hji, hki]
    · rw [hji, Function.update_self, Function.update_of_ne hki] at hjk
      exact absurd hjk.symm (hnone k)
    · rw [hki, Function.update_self, Function.update_of_ne hji] at hjk
      exact absurd hjk (hnone j)
    · rw [Function.update_of_ne hji] at hj hjk
      rw [Function.update_of_ne hki] at hjk
      exact ht.apart j k hj hjk
  · rw [Function.update_of_ne hj]
    exact ht.counts j
  · rw [Function.update_self]
    exact hfs
  · rw [Function.update_self]
    obtain ⟨-, hr, hw⟩ | ⟨hsome, -⟩ | ⟨hsome, -⟩ := ht.counts i
    · exact ⟨Nat.zero_lt_succ _, hr, hw⟩
    · exact absurd hblank hsome
    · exact absurd hblank hsome

/-- `inc_lock` raises the object's own entry, or a blank one that it makes the object's. -/
theorem incLock_cases (ht : Tallied t hs) (hfs : dp.fs ≠ 0)
    (hread : ∀ h ∈ hs, h.object = dp → h.write = false) (acc : Nat) :
    (incLock t dp acc = (none, t) ∧ (∀ h ∈ hs, h.object ≠ dp) ∧ ∀ i, ¬t.blank i) ∨
      ∃ t₁ i, incLock t dp acc = raiseLock t₁ i acc ∧ Pending t₁ hs i ∧ (t₁ i).object = dp ∧
        ((∀ h ∈ hs, h.object ≠ dp) → (t₁ i).ctr = 0) := by
  unfold incLock
  cases hfind : t.find fun s => s.object = dp with
  | some i =>
      have hobj := Locks.find_eq_some hfind
      have hsome : (t i).object.fs ≠ 0 := by
        rw [hobj]
        exact hfs
      refine Or.inr ⟨t, i, rfl, ⟨ht.own, ht.apart, fun j _ => ht.counts j, hsome, ?_⟩, hobj,
        fun hnone => ?_⟩
      · obtain ⟨hzero, -⟩ | ⟨-, hpos, hlt, hr, hw⟩ | ⟨-, -, -, hw⟩ := ht.counts i
        · exact absurd hzero hsome
        · exact ⟨hlt, hr, hw⟩
        · obtain ⟨h, hh, hslot, hwrite⟩ := exists_writer (Nat.lt_of_lt_of_eq Nat.one_pos hw.symm)
          have hown := ht.own h hh
          rw [hslot, hobj] at hown
          exact absurd (hread h hh hown.symm) (by rw [hwrite]; decide)
      · obtain ⟨h, hh, hslot⟩ := ht.exists_handle hsome
        have hown := ht.own h hh
        rw [hslot, hobj] at hown
        exact absurd hown.symm (hnone h hh)
  | none =>
      have hnone : ∀ h ∈ hs, h.object ≠ dp := by
        intro h hh he
        exact Locks.find_eq_none hfind h.slot ((ht.own h hh).trans he)
      cases hblank : t.find fun s => s.object.fs = 0 with
      | none => exact Or.inl ⟨rfl, hnone, Locks.find_eq_none hblank⟩
      | some i =>
          have hp := ht.pending_new (Locks.find_eq_some hblank) hfs (Locks.find_eq_none hfind)
          refine Or.inr ⟨Function.update t i ⟨dp, 0⟩, i, rfl, hp, ?_, fun _ => ?_⟩
          · rw [Function.update_self]
          · rw [Function.update_self]

/-- `chk_lock` refuses exactly what is open and written to, or to be written to. -/
theorem chkLock_eq_locked_iff (ht : Tallied t hs) :
    chkLock t dp acc = .locked ↔ ∃ h ∈ hs, h.object = dp ∧ (acc ≠ 0 ∨ h.write = true) := by
  unfold chkLock
  cases hfind : t.find fun s => s.object.fs ≠ 0 ∧ s.object = dp with
  | none =>
      have hnone : ¬∃ h ∈ hs, h.object = dp ∧ (acc ≠ 0 ∨ h.write = true) := by
        rintro ⟨h, hh, he, -⟩
        exact Locks.find_eq_none hfind h.slot ⟨ht.used hh, (ht.own h hh).trans he⟩
      simp only [hnone, iff_false]
      split <;> simp
  | some i =>
      obtain ⟨hsome, hobj⟩ := Locks.find_eq_some hfind
      have hslot : ∀ h ∈ hs, h.object = dp → h.slot = i := fun h hh he =>
        (ht.apart i h.slot hsome (by rw [ht.own h hh, he, hobj])).symm
      simp only
      constructor
      · intro hlocked
        have hwhy : acc ≠ 0 ∨ (t i).ctr = 0x100 := by
          by_contra hno
          rw [if_neg hno] at hlocked
          cases hlocked
        obtain hacc | hctr := hwhy
        · obtain ⟨h, hh, hs⟩ := ht.exists_handle hsome
          exact ⟨h, hh, by rw [← ht.own h hh, hs, hobj], Or.inl hacc⟩
        · obtain ⟨hzero, -⟩ | ⟨-, -, hlt, -⟩ | ⟨-, -, -, hw⟩ := ht.counts i
          · exact absurd hzero hsome
          · omega
          · obtain ⟨h, hh, hs, hwrite⟩ := exists_writer (hw ▸ Nat.one_pos)
            exact ⟨h, hh, by rw [← ht.own h hh, hs, hobj], Or.inr hwrite⟩
      · rintro ⟨h, hh, he, hacc | hwrite⟩
        · exact if_pos (Or.inl hacc)
        · refine if_pos (Or.inr ?_)
          have hpos : 0 < writers hs i :=
            List.countP_pos_iff.mpr ⟨h, hh, by simp [hslot h hh he, hwrite]⟩
          obtain ⟨-, -, hw⟩ | ⟨-, -, -, -, hw⟩ | ⟨-, hctr, -, -⟩ := ht.counts i
          · omega
          · omega
          · exact hctr

/-- The objects that are open. -/
def objects (hs : List Handle) : Finset Object := (hs.map fun h => h.object).toFinset

/-- Every object that is open takes one entry. -/
theorem Tallied.card_objects (ht : Tallied t hs) :
    (objects hs).card + (Finset.univ.filter fun i => t.blank i).card = fsLock := by
  have himage : objects hs =
      (Finset.univ.filter fun i => ¬t.blank i).image fun i => (t i).object := by
    ext dp
    simp only [objects, List.mem_toFinset, List.mem_map, Finset.mem_image, Finset.mem_filter,
      Finset.mem_univ, true_and]
    constructor
    · rintro ⟨h, hh, rfl⟩
      exact ⟨h.slot, ht.used hh, ht.own h hh⟩
    · rintro ⟨i, hi, rfl⟩
      obtain ⟨h, hh, hs⟩ := ht.exists_handle hi
      exact ⟨h, hh, by rw [← ht.own h hh, hs]⟩
  have hinj : Set.InjOn (fun i => (t i).object)
      (Finset.univ.filter fun i => ¬t.blank i : Finset (Fin fsLock)) := by
    intro i hi j _ hij
    exact ht.apart i j (Finset.mem_filter.mp hi).2 hij
  rw [himage, Finset.card_image_of_injOn hinj, Nat.add_comm, Finset.card_filter_add_card_filter_not]
  simp

/-- It answers that there are too many only when ten others are open. -/
theorem chkLock_eq_tooMany_iff (ht : Tallied t hs) :
    chkLock t dp acc = .tooManyOpenFiles ↔
      acc ≠ 2 ∧ (∀ h ∈ hs, h.object ≠ dp) ∧ (objects hs).card = fsLock := by
  have hcard := ht.card_objects
  have hfull : (objects hs).card = fsLock ↔ ¬∃ i, t.blank i := by
    have hzero : (objects hs).card = fsLock ↔
        (Finset.univ.filter fun i => t.blank i).card = 0 := by omega
    rw [hzero, Finset.card_eq_zero, Finset.filter_eq_empty_iff, not_exists]
    simp
  unfold chkLock
  cases hfind : t.find fun s => s.object.fs ≠ 0 ∧ s.object = dp with
  | none =>
      have hnone : ∀ h ∈ hs, h.object ≠ dp := fun h hh he =>
        Locks.find_eq_none hfind h.slot ⟨ht.used hh, (ht.own h hh).trans he⟩
      rw [hfull, and_iff_right hnone]
      show (if _ then _ else _) = _ ↔ _
      split
      · next h =>
          refine ⟨fun hok => (by cases hok), fun hall => ?_⟩
          obtain hblank | hacc := h
          · exact absurd hblank hall.2
          · exact absurd hacc hall.1
      · next h =>
          rw [not_or] at h
          exact ⟨fun _ => ⟨h.2, h.1⟩, fun _ => rfl⟩
  | some i =>
      obtain ⟨hsome, hobj⟩ := Locks.find_eq_some hfind
      obtain ⟨h, hh, hs⟩ := ht.exists_handle hsome
      have hopen : h.object = dp := by rw [← ht.own h hh, hs, hobj]
      refine ⟨fun htoo => ?_, fun hall => absurd hopen (hall.2.1 h hh)⟩
      simp only at htoo
      split at htoo <;> cases htoo

/-! ## Closing -/

theorem readers_erase (hh : h ∈ hs) (i : Fin fsLock) :
    readers hs i = readers (hs.erase h) i + if h.slot = i ∧ h.write = false then 1 else 0 := by
  rw [← readers_cons]
  exact (List.perm_cons_erase hh).countP_eq _

theorem writers_erase (hh : h ∈ hs) (i : Fin fsLock) :
    writers hs i = writers (hs.erase h) i + if h.slot = i ∧ h.write = true then 1 else 0 := by
  rw [← writers_cons]
  exact (List.perm_cons_erase hh).countP_eq _

theorem decLock_handle (t : Locks) (h : Handle) :
    decLock t (h.slot + 1) = (.ok, Function.update t h.slot (t h.slot).lower) := by
  have hslot : 0 < h.slot.val + 1 ∧ h.slot.val + 1 - 1 < fsLock := ⟨by omega, by omega⟩
  unfold decLock
  rw [dif_pos hslot]
  rfl

theorem decLock_table (t : Locks) (h : Handle) :
    (decLock t (h.slot + 1)).2 = Function.update t h.slot (t h.slot).lower := by
  rw [decLock_handle]

/-- An entry without the handle that is closed. -/
theorem lower_counts (ht : Tallied t hs) (hh : h ∈ hs) :
    Counts (t h.slot).lower (readers (hs.erase h) h.slot) (writers (hs.erase h) h.slot) := by
  have hr := readers_erase hh h.slot
  have hw := writers_erase hh h.slot
  have hused := ht.used hh
  unfold Counts FileSem.lower
  obtain ⟨hzero, -⟩ | ⟨-, hpos, hlt, hrc, hw0⟩ | ⟨-, hctr, hr0, hw1⟩ := ht.counts h.slot
  · exact absurd hzero hused
  · have hread : h.write = false := by
      cases hwrite : h.write with
      | false => rfl
      | true =>
          rw [if_pos ⟨rfl, hwrite⟩] at hw
          omega
    rw [if_pos ⟨rfl, hread⟩] at hr
    have hlow : lowered (t h.slot).ctr = (t h.slot).ctr - 1 := by
      unfold lowered
      rw [if_neg (by omega)]
    rw [hlow]
    by_cases hlast : (t h.slot).ctr - 1 = 0
    · rw [if_pos hlast]
      exact Or.inl ⟨rfl, by omega, by omega⟩
    · rw [if_neg hlast]
      have hmore : 0 < (t h.slot).ctr - 1 ∧ (t h.slot).ctr - 1 < 0x100 ∧
          readers (hs.erase h) h.slot = (t h.slot).ctr - 1 ∧ writers (hs.erase h) h.slot = 0 := by
        omega
      exact Or.inr (Or.inl ⟨hused, hmore⟩)
  · have hlow : lowered (t h.slot).ctr = 0 := by
      unfold lowered
      rw [if_pos hctr]
    have hwrite : h.write = true := by
      cases hwrite : h.write with
      | true => rfl
      | false =>
          rw [if_pos ⟨rfl, hwrite⟩] at hr
          omega
    rw [if_pos ⟨rfl, hwrite⟩] at hw
    rw [if_pos hlow]
    exact Or.inl ⟨rfl, by omega, by omega⟩

theorem lower_mark {s : FileSem} (h : s.ctr = 0x100) : s.lower.object.fs = 0 := by
  unfold FileSem.lower lowered
  rw [if_pos h]
  rfl

/-- An entry that stays in use stays its object's. -/
theorem lower_object {s : FileSem} (h : s.lower.object.fs ≠ 0) : s.lower.object = s.object := by
  unfold FileSem.lower at h ⊢
  by_cases hzero : lowered s.ctr = 0
  · rw [if_pos hzero] at h
    exact absurd rfl h
  · exact if_neg hzero

theorem used_of_counts {s : FileSem} {r w : Nat} (hc : Counts s r w) (h : 0 < r ∨ 0 < w) :
    s.object.fs ≠ 0 := by
  obtain ⟨-, hr, hw⟩ | ⟨hsome, -⟩ | ⟨hsome, -⟩ := hc
  · omega
  · exact hsome
  · exact hsome

/-- Entries that change only by going out of use, with handles they still count. -/
theorem Tallied.of_counts (ht : Tallied t hs) (hsub : ∀ h ∈ hs', h ∈ hs)
    (hcounts : ∀ i, Counts (t' i) (readers hs' i) (writers hs' i))
    (hobject : ∀ i, (t' i).object.fs ≠ 0 → (t' i).object = (t i).object) : Tallied t' hs' := by
  have hown : ∀ h ∈ hs', (t' h.slot).object.fs ≠ 0 := by
    intro h hh
    refine used_of_counts (hcounts h.slot) ?_
    cases hwrite : h.write with
    | false => exact Or.inl (List.countP_pos_iff.mpr ⟨h, hh, by simp [hwrite]⟩)
    | true => exact Or.inr (List.countP_pos_iff.mpr ⟨h, hh, by simp [hwrite]⟩)
  refine ⟨fun h hh => ?_, fun i j hi hij => ?_, hcounts⟩
  · rw [hobject _ (hown h hh)]
    exact ht.own h (hsub h hh)
  · have hj : (t' j).object.fs ≠ 0 := hij ▸ hi
    refine ht.apart i j ?_ ?_
    · rw [← hobject i hi]
      exact hi
    · rw [← hobject i hi, ← hobject j hj]
      exact hij

/-- `dec_lock` takes a handle off its entry. -/
theorem decLock_tallied (ht : Tallied t hs) (hh : h ∈ hs) :
    Tallied (decLock t (h.slot + 1)).2 (hs.erase h) := by
  rw [decLock_table]
  refine ht.of_counts (fun k hk => List.mem_of_mem_erase hk) (fun i => ?_) fun i hi => ?_
  · by_cases hi : i = h.slot
    · subst hi
      rw [Function.update_self]
      exact lower_counts ht hh
    · have hr := readers_erase hh i
      have hw := writers_erase hh i
      rw [if_neg fun h => hi h.1.symm] at hr hw
      have hold := ht.counts i
      rw [hr, hw] at hold
      rw [Function.update_of_ne hi]
      exact hold
  · by_cases hslot : i = h.slot
    · subst hslot
      rw [Function.update_self] at hi ⊢
      exact lower_object hi
    · rw [Function.update_of_ne hslot]

/-- `clear_lock` takes all handles on a volume off. -/
theorem clearLock_tallied (ht : Tallied t hs) {fs : Nat} :
    Tallied (clearLock t fs) (hs.filter fun h => h.object.fs ≠ fs) := by
  refine ht.of_counts (fun h hh => (List.mem_filter.mp hh).1) (fun i => ?_) fun i hi => ?_
  · unfold clearLock
    split
    · next hvol =>
        have hnone : ∀ h ∈ hs.filter (fun h => h.object.fs ≠ fs), h.slot ≠ i := by
          intro h hh hs
          obtain ⟨hmem, hkeep⟩ := List.mem_filter.mp hh
          have hobj := ht.own h hmem
          rw [hs] at hobj
          rw [hobj] at hvol
          simp [hvol] at hkeep
        refine Or.inl ⟨rfl, List.countP_eq_zero.mpr fun h hh => ?_,
          List.countP_eq_zero.mpr fun h hh => ?_⟩
        · simp [hnone h hh]
        · simp [hnone h hh]
    · next hvol =>
        have hall : ∀ h ∈ hs, h.slot = i → h.object.fs ≠ fs := by
          intro h hh hs he
          rw [← ht.own h hh, hs] at he
          exact hvol he
        have hr : readers (hs.filter fun h => h.object.fs ≠ fs) i = readers hs i := by
          unfold readers
          rw [List.countP_filter]
          refine List.countP_congr fun h hh => ?_
          have := hall h hh
          simp only [Bool.and_eq_true, decide_eq_true_eq]
          tauto
        have hw : writers (hs.filter fun h => h.object.fs ≠ fs) i = writers hs i := by
          unfold writers
          rw [List.countP_filter]
          refine List.countP_congr fun h hh => ?_
          have := hall h hh
          simp only [Bool.and_eq_true, decide_eq_true_eq]
          tauto
        rw [hr, hw]
        exact ht.counts i
  · unfold clearLock at hi ⊢
    split at hi
    · exact absurd rfl hi
    · next hvol => rw [if_neg hvol]

/-! ## Runs -/

/-- The access that `f_open` asks for. -/
def access (write : Bool) : Nat := if write then 1 else 0

/-- What is opened and closed, one at a time. -/
inductive LockStep : Locks × List Handle → Locks × List Handle → Prop
  /-- `f_open` of a file that exists, for reading or writing. -/
  | openFile {t t' : Locks} {hs : List Handle} {i : Fin fsLock} (dp : Object) (write : Bool)
      (hfs : dp.fs ≠ 0) (hchk : chkLock t dp (access write) = .ok)
      (hfew : write = false → opened hs dp < 255)
      (hinc : incLock t dp (access write) = (some i, t')) :
      LockStep (t, hs) (t', ⟨dp, write, i⟩ :: hs)
  /-- `f_open` of a file whose directory entry has just been made, in a free place: `f_unlink`
  refuses a file that is open. -/
  | create {t t' : Locks} {hs : List Handle} {i : Fin fsLock} (dp : Object) (hfs : dp.fs ≠ 0)
      (hnew : ∀ h ∈ hs, h.object ≠ dp) (henq : enqLock t = true)
      (hinc : incLock t dp 1 = (some i, t')) : LockStep (t, hs) (t', ⟨dp, true, i⟩ :: hs)
  /-- `f_opendir` of a sub-directory, which asks no `chk_lock`.  Its place is that of its dot
  entry, which no file has, so it is open for reading only. -/
  | openDir {t t' : Locks} {hs : List Handle} {i : Fin fsLock} (dp : Object) (hfs : dp.fs ≠ 0)
      (hread : ∀ h ∈ hs, h.object = dp → h.write = false) (hfew : opened hs dp < 255)
      (hinc : incLock t dp 0 = (some i, t')) : LockStep (t, hs) (t', ⟨dp, false, i⟩ :: hs)
  /-- `f_close` and `f_closedir`. -/
  | close {t : Locks} {hs : List Handle} (h : Handle) (hh : h ∈ hs) :
      LockStep (t, hs) ((decLock t (h.slot + 1)).2, hs.erase h)
  /-- `f_mount`, after which the handles on the volume are no longer valid. -/
  | unmount {t : Locks} {hs : List Handle} (fs : Nat) (hfs : fs ≠ 0) :
      LockStep (t, hs) (clearLock t fs, hs.filter fun h => h.object.fs ≠ fs)

/-- `inc_lock` for an object that is open for nothing else than reading, if at all. -/
theorem incLock_tallied (ht : Tallied t hs) (hfs : dp.fs ≠ 0)
    (hread : ∀ h ∈ hs, h.object = dp → acc = 0 ∧ h.write = false)
    (hfew : acc = 0 → opened hs dp < 255) :
    (incLock t dp acc = (none, t) ∧ (∀ h ∈ hs, h.object ≠ dp) ∧ ∀ i, ¬t.blank i) ∨
      ∃ i t', incLock t dp acc = (some i, t') ∧
        Tallied t' (⟨dp, decide (acc ≠ 0), i⟩ :: hs) := by
  obtain hfull | ⟨t₁, i, hinc, hp, hobj, hzero⟩ :=
    incLock_cases ht hfs (fun h hh he => (hread h hh he).2) acc
  · exact Or.inl hfull
  · have hacc : acc ≠ 0 → (t₁ i).ctr = 0 := fun hne =>
      hzero fun h hh he => hne (hread h hh he).1
    obtain ⟨t', hraise, ht'⟩ := raise_tallied hp hacc (hobj.symm ▸ hfew)
    rw [hobj] at ht'
    exact Or.inr ⟨i, t', hinc.trans hraise, ht'⟩

theorem chkLock_ok (ht : Tallied t hs) {write : Bool}
    (hok : chkLock t dp (access write) = .ok) :
    ∀ h ∈ hs, h.object = dp → access write = 0 ∧ h.write = false := by
  intro h hh he
  have hno : ¬(access write ≠ 0 ∨ h.write = true) := by
    intro hacc
    rw [(chkLock_eq_locked_iff ht).mpr ⟨h, hh, he, hacc⟩] at hok
    cases hok
  rw [not_or, not_not, Bool.not_eq_true] at hno
  exact hno

theorem decide_access (write : Bool) : decide (access write ≠ 0) = write := by
  cases write <;> rfl

/-- An object is opened for one more reader, or for its only writer. -/
theorem Tallied.opened_more (ht : Tallied t hs) (hfs : dp.fs ≠ 0) (write : Bool)
    (hread : ∀ h ∈ hs, h.object = dp → access write = 0 ∧ h.write = false)
    (hfew : write = false → opened hs dp < 255)
    (hinc : incLock t dp (access write) = (some i, t')) : Tallied t' (⟨dp, write, i⟩ :: hs) := by
  have hfew' : access write = 0 → opened hs dp < 255 := by
    intro h
    cases write with
    | false => exact hfew rfl
    | true => cases h
  obtain ⟨hfull, -, -⟩ | ⟨j, t₁, hinc', ht'⟩ := incLock_tallied ht hfs hread hfew'
  · rw [hfull] at hinc
    cases hinc
  · rw [hinc, Prod.mk.injEq, Option.some.injEq] at hinc'
    rw [decide_access, ← hinc'.1, ← hinc'.2] at ht'
    exact ht'

theorem lockStep_tallied {s s' : Locks × List Handle} (hstep : LockStep s s')
    (ht : Tallied s.1 s.2) : Tallied s'.1 s'.2 := by
  cases hstep with
  | openFile dp write hfs hchk hfew hinc =>
      exact ht.opened_more hfs write (chkLock_ok ht hchk) hfew hinc
  | create dp hfs hnew henq hinc =>
      exact ht.opened_more hfs true (fun h hh he => absurd he (hnew h hh)) (fun h => by cases h)
        hinc
  | openDir dp hfs hread hfew hinc =>
      exact ht.opened_more hfs false (fun h hh he => ⟨rfl, hread h hh he⟩) (fun _ => hfew) hinc
  | close h hh => exact decLock_tallied ht hh
  | unmount fs hfs => exact clearLock_tallied ht

abbrev LockRun : Locks × List Handle → Locks × List Handle → Prop :=
  Relation.ReflTransGen LockStep

/-- `Files` as the program starts. -/
def noLocks : Locks := fun _ => ⟨⟨0, 0, 0⟩, 0⟩

theorem noLocks_tallied : Tallied noLocks [] :=
  { own := fun _ hh => by cases hh
    apart := fun _ _ hi => absurd rfl hi
    counts := fun _ => Or.inl ⟨rfl, rfl, rfl⟩ }

theorem lockRun_tallied {s : Locks × List Handle} (hrun : LockRun (noLocks, []) s) :
    Tallied s.1 s.2 := by
  induction hrun with
  | refl => exact noLocks_tallied
  | tail _ hstep ih => exact lockStep_tallied hstep ih

theorem readers_add_writers (hs : List Handle) (i : Fin fsLock) :
    readers hs i + writers hs i = hs.countP fun h => h.slot = i := by
  induction hs with
  | nil => rfl
  | cons h hs ih =>
      rw [readers_cons, writers_cons, List.countP_cons, ← ih]
      by_cases hslot : h.slot = i
      · cases hwrite : h.write with
        | false => simp [hslot]; omega
        | true => simp [hslot]; omega
      · simp [hslot]

/-- The handles of an object all have its entry, and no others do. -/
theorem Tallied.opened_eq (ht : Tallied t hs) (hh : h ∈ hs) :
    opened hs h.object = readers hs h.slot + writers hs h.slot := by
  rw [readers_add_writers]
  refine List.countP_congr fun k hk => ?_
  have hiff : k.object = h.object ↔ k.slot = h.slot := by
    constructor
    · intro he
      refine ht.apart k.slot h.slot (ht.used hk) ?_
      rw [ht.own k hk, ht.own h hh, he]
    · intro he
      rw [← ht.own k hk, ← ht.own h hh, he]
  simpa using hiff

theorem Tallied.opened_eq_one (ht : Tallied t hs) (hh : h ∈ hs) (hwrite : h.write = true) :
    opened hs h.object = 1 := by
  have hpos : 0 < writers hs h.slot := List.countP_pos_iff.mpr ⟨h, hh, by simp [hwrite]⟩
  rw [ht.opened_eq hh]
  obtain ⟨-, -, hw⟩ | ⟨-, -, -, -, hw⟩ | ⟨-, -, hr, hw⟩ := ht.counts h.slot
  · omega
  · omega
  · omega

theorem chkLock_cases (t : Locks) (dp : Object) (acc : Nat) :
    chkLock t dp acc = .ok ∨ chkLock t dp acc = .locked ∨
      chkLock t dp acc = .tooManyOpenFiles := by
  unfold chkLock
  split <;> split <;> simp

/-- An open that `chk_lock` lets through gets an entry, so that `f_open` never ends with
`FR_INT_ERR`. -/
theorem Tallied.incLock_some (ht : Tallied t hs) (hfs : dp.fs ≠ 0) (hacc : acc ≠ 2)
    (hok : chkLock t dp acc = .ok) : ∃ i t', incLock t dp acc = (some i, t') := by
  have hno : ∀ h ∈ hs, h.object = dp → ¬(acc ≠ 0 ∨ h.write = true) := by
    intro h hh he hl
    rw [(chkLock_eq_locked_iff ht).mpr ⟨h, hh, he, hl⟩] at hok
    cases hok
  obtain ⟨-, hnone, hfull⟩ | ⟨t₁, i, hinc, -, -, hzero⟩ :=
    incLock_cases ht hfs (fun h hh he => by simpa using fun hw => hno h hh he (Or.inr hw)) acc
  · have hcard := ht.card_objects
    rw [Finset.filter_eq_empty_iff.mpr fun i _ => hfull i, Finset.card_empty] at hcard
    rw [(chkLock_eq_tooMany_iff ht).mpr ⟨hacc, hnone, hcard⟩] at hok
    cases hok
  · have hctr : ¬(acc ≠ 0 ∧ (t₁ i).ctr ≠ 0) := fun h =>
      h.2 (hzero fun k hk he => hno k hk he (Or.inl h.1))
    rw [hinc]
    unfold raiseLock
    rw [if_neg hctr]
    exact ⟨i, _, rfl⟩

/-- Whatever has been opened and closed, who writes to an object has it alone.  `chk_lock`
refuses just what would break this, or would be an eleventh object, an open that it lets
through gets its entry, and every handle can be closed. -/
theorem locks_over_run (hrun : LockRun (noLocks, []) (t, hs)) :
    (∀ h ∈ hs, h.write = true → opened hs h.object = 1) ∧
      (∀ (dp : Object) (acc : Nat),
        (chkLock t dp acc = .locked ↔
          ∃ h ∈ hs, h.object = dp ∧ (acc ≠ 0 ∨ h.write = true)) ∧
        (chkLock t dp acc = .tooManyOpenFiles ↔
          acc ≠ 2 ∧ (∀ h ∈ hs, h.object ≠ dp) ∧ (objects hs).card = fsLock) ∧
        (dp.fs ≠ 0 → acc ≠ 2 → chkLock t dp acc = .ok →
          ∃ i t', incLock t dp acc = (some i, t'))) ∧
      ∀ h ∈ hs, (decLock t (h.slot + 1)).1 = .ok := by
  have ht : Tallied t hs := lockRun_tallied hrun
  refine ⟨fun h hh hwrite => ht.opened_eq_one hh hwrite, fun dp acc => ⟨?_, ?_, ?_⟩,
    fun h hh => ?_⟩
  · exact chkLock_eq_locked_iff ht
  · exact chkLock_eq_tooMany_iff ht
  · exact ht.incLock_some
  · rw [decLock_handle]

/-- One file that is written and one that is read. -/
def logAndText : List Handle := [⟨⟨1, 0, 1⟩, false, 1⟩, ⟨⟨1, 0, 0⟩, true, 0⟩]

def logLock : Locks := (incLock noLocks ⟨1, 0, 0⟩ 1).2

theorem logAndText_run : LockRun (noLocks, []) ((incLock logLock ⟨1, 0, 1⟩ 0).2, logAndText) := by
  have hlog : LockStep (noLocks, []) (logLock, [⟨⟨1, 0, 0⟩, true, 0⟩]) :=
    LockStep.create ⟨1, 0, 0⟩ (by decide) (fun _ hh => by cases hh) (by decide) rfl
  have htext : LockStep (logLock, [⟨⟨1, 0, 0⟩, true, 0⟩]) (_, logAndText) :=
    LockStep.openFile ⟨1, 0, 1⟩ false (by decide) (by decide) (fun _ => by decide) rfl
  exact (Relation.ReflTransGen.single hlog).tail htext

theorem locks_of_logAndText :
    chkLock (incLock logLock ⟨1, 0, 1⟩ 0).2 ⟨1, 0, 0⟩ 0 = .locked ∧
      (decLock (incLock logLock ⟨1, 0, 1⟩ 0).2 1).1 = .ok := by
  obtain ⟨-, hchk, hclose⟩ := locks_over_run logAndText_run
  refine ⟨(hchk ⟨1, 0, 0⟩ 0).1.mpr ⟨⟨⟨1, 0, 0⟩, true, 0⟩, ?_, rfl, Or.inr rfl⟩,
    hclose ⟨⟨1, 0, 0⟩, true, 0⟩ ?_⟩
  · decide
  · decide

/-! ## The 256th reader -/

/-- The entry of an object that is open. -/
theorem Tallied.find_opened (ht : Tallied t hs) (hh : h ∈ hs) :
    (t.find fun s => s.object = h.object) = some h.slot := by
  cases hfind : t.find fun s => s.object = h.object with
  | none => exact absurd (ht.own h hh) (Locks.find_eq_none hfind h.slot)
  | some i =>
      have hobj := Locks.find_eq_some hfind
      have hsame : h.slot = i := ht.apart h.slot i (ht.used hh) (by rw [ht.own h hh, hobj])
      rw [hsame]

theorem chkLock_of_entry {t : Locks} (i : Fin fsLock) (hsome : (t i).object.fs ≠ 0)
    (hobj : (t i).object = dp) (hctr : ∀ j, (t j).object = dp → (t j).ctr = 0x100) :
    chkLock t dp 0 = .locked := by
  unfold chkLock
  cases hfind : t.find fun s => s.object.fs ≠ 0 ∧ s.object = dp with
  | none => exact absurd ⟨hsome, hobj⟩ (Locks.find_eq_none hfind i)
  | some j => exact if_pos (Or.inr (hctr j (Locks.find_eq_some hfind).2))

theorem chkLock_of_none {t : Locks} (i : Fin fsLock) (hblank : t.blank i)
    (hnone : ∀ j, (t j).object.fs ≠ 0 → (t j).object ≠ dp) (acc : Nat) :
    chkLock t dp acc = .ok := by
  unfold chkLock
  cases hfind : t.find fun s => s.object.fs ≠ 0 ∧ s.object = dp with
  | none => exact if_pos (Or.inl ⟨i, hblank⟩)
  | some j => exact absurd (Locks.find_eq_some hfind).2 (hnone j (Locks.find_eq_some hfind).1)

/-- An object that is opened for reading again and again. -/
theorem readers_run (dp : Object) (hfs : dp.fs ≠ 0) : ∀ n ≤ 255, ∃ t hs,
    LockRun (noLocks, []) (t, hs) ∧ opened hs dp = n ∧
      ∀ h ∈ hs, h.object = dp ∧ h.write = false
  | 0, _ => ⟨noLocks, [], Relation.ReflTransGen.refl, rfl, fun _ hh => by cases hh⟩
  | n + 1, hn => by
      obtain ⟨t, hs, hrun, hopen, hread⟩ := readers_run dp hfs n (by omega)
      have ht : Tallied t hs := lockRun_tallied hrun
      have hok : chkLock t dp (access false) = .ok := by
        obtain hok | hlocked | htoo := chkLock_cases t dp (access false)
        · exact hok
        · obtain ⟨h, hh, -, hacc | hwrite⟩ := (chkLock_eq_locked_iff ht).mp hlocked
          · exact absurd rfl hacc
          · rw [(hread h hh).2] at hwrite
            cases hwrite
        · have hcard := ((chkLock_eq_tooMany_iff ht).mp htoo).2.2
          have hle : (objects hs).card ≤ 1 := by
            refine Finset.card_le_one.mpr fun a ha b hb => ?_
            obtain ⟨h, hh, rfl⟩ := List.mem_map.mp (List.mem_toFinset.mp ha)
            obtain ⟨k, hk, rfl⟩ := List.mem_map.mp (List.mem_toFinset.mp hb)
            rw [(hread h hh).1, (hread k hk).1]
          rw [hcard] at hle
          exact absurd hle (by decide)
      obtain ⟨i, t', hinc⟩ := ht.incLock_some hfs (by decide) hok
      have hstep : LockStep (t, hs) (t', ⟨dp, false, i⟩ :: hs) :=
        LockStep.openFile dp false hfs hok (fun _ => by omega) hinc
      refine ⟨t', ⟨dp, false, i⟩ :: hs, hrun.tail hstep, ?_, fun h hh => ?_⟩
      · rw [opened, List.countP_cons, if_pos (by simp)]
        exact congrArg (· + 1) hopen
      · obtain rfl | hh := List.mem_cons.mp hh
        · exact ⟨rfl, rfl⟩
        · exact hread h hh

/-- The count of readers runs into the mark of a writer.  With a 256th reader nobody else may
read, and after one of them has closed anybody may write, while 255 still read. -/
theorem readers_wrap (hrun : LockRun (noLocks, []) (t, hs)) (hopen : opened hs dp = 255)
    (hread : ∀ h ∈ hs, h.object = dp → h.write = false) :
    ∃ i t', incLock t dp 0 = (some i, t') ∧ chkLock t' dp 0 = .locked ∧
      chkLock (decLock t' (i + 1)).2 dp 1 = .ok := by
  have ht : Tallied t hs := lockRun_tallied hrun
  have hpos : 0 < opened hs dp := by omega
  obtain ⟨h, hh, hdp⟩ := List.countP_pos_iff.mp hpos
  have hobj : h.object = dp := by simpa using hdp
  subst hobj
  have hused := ht.used hh
  have hown := ht.own h hh
  have hctr : (t h.slot).ctr = 255 := by
    have hsum := ht.opened_eq hh
    have hw : writers hs h.slot = 0 := by
      refine List.countP_eq_zero.mpr fun k hk hp => ?_
      have hslot : k.slot = h.slot ∧ k.write = true := by simpa using hp
      have hk' := hread k hk (by rw [← ht.own k hk, hslot.1, hown])
      rw [hslot.2] at hk'
      cases hk'
    obtain ⟨hzero, -⟩ | ⟨-, -, -, hr, -⟩ | ⟨-, -, -, hw'⟩ := ht.counts h.slot
    · exact absurd hzero hused
    · omega
    · omega
  have hinc : incLock t h.object 0 = (some h.slot, t.setCtr h.slot 0x100) := by
    unfold incLock
    rw [ht.find_opened hh]
    show raiseLock t h.slot 0 = _
    unfold raiseLock
    rw [if_neg fun h => h.1 rfl, if_neg fun h => h rfl, hctr]
    rfl
  refine ⟨h.slot, _, hinc, ?_, ?_⟩
  · refine chkLock_of_entry h.slot ?_ ?_ fun j hj => ?_
    · rw [Locks.setCtr_object]
      exact hused
    · rw [Locks.setCtr_object]
      exact hown
    · rw [Locks.setCtr_object] at hj
      have hslot : h.slot = j := ht.apart h.slot j hused (by rw [hown, hj])
      rw [← hslot, Locks.setCtr_self]
  · have hzero : ((decLock (t.setCtr h.slot 0x100) (h.slot + 1)).2 h.slot).object.fs = 0 := by
      rw [decLock_table, Function.update_self]
      exact lower_mark (Locks.setCtr_self ..)
    refine chkLock_of_none h.slot hzero (fun j hj hobj => ?_) 1
    by_cases hslot : j = h.slot
    · subst hslot
      exact hj hzero
    · rw [decLock_table, Function.update_of_ne hslot, Locks.setCtr_object] at hobj
      exact hslot (ht.apart h.slot j hused (by rw [hown, hobj])).symm

theorem readers_wrap_on_root : ∃ (t : Locks) (hs : List Handle), ∃ i t',
    LockRun (noLocks, []) (t, hs) ∧ incLock t ⟨1, 0, 0⟩ 0 = (some i, t') ∧
      chkLock (decLock t' (i + 1)).2 ⟨1, 0, 0⟩ 1 = .ok := by
  obtain ⟨t, hs, hrun, hopen, hread⟩ := readers_run ⟨1, 0, 0⟩ (by decide) 255 (by decide)
  obtain ⟨i, t', hinc, -, hchk⟩ := readers_wrap hrun hopen fun h hh _ => (hread h hh).2
  exact ⟨t, hs, i, t', hrun, hinc, hchk⟩

end Fat
end ImuFirmware
