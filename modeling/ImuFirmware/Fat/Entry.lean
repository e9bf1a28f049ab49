/-
The entries of a mounted volume, read and written through the window.

`Geometry.entries` is the table a reader finds through the window.  `get_fat` returns
from it and `put_fat` changes one entry of it, whichever sectors the window has to visit
and whichever transfers fail on the way.  The one exception is a FAT12 entry that lies
across two sectors: a failure between them leaves it half written.
-/
import ImuFirmware.Fat.Table

namespace ImuFirmware
namespace Fat

open Storage

def FResult.ofDisk : Bool → FResult
  | true => .ok
  | false => .diskErr

namespace Geometry

variable (g : Geometry)

/-- The sectors of the first table. -/
def InTable (s : Nat) : Prop := g.fatbase ≤ s ∧ s < g.fatbase + g.fsize

/-- The FSINFO sector. -/
def Info (s : Nat) : Prop := s = g.volbase + 1 ∧ s < g.fatbase

/-- The sectors of the volume, the second table and FSINFO apart. -/
def home (s : Nat) : Prop :=
  s < noSector ∧ ¬(g.fatbase + g.fsize ≤ s ∧ s < g.fatbase + g.nFats * g.fsize) ∧ ¬g.Info s

/-- Where the window is without a sector of the volume in it. -/
def parked (s : Nat) : Prop := s = noSector ∨ g.Info s

instance (s : Nat) : Decidable (g.InTable s) := inferInstanceAs (Decidable (_ ∧ _))

instance (s : Nat) : Decidable (g.Info s) := inferInstanceAs (Decidable (_ ∧ _))

instance (s : Nat) : Decidable (g.home s) := inferInstanceAs (Decidable (_ ∧ _))

/-- Where the copies of a sector lie. -/
def copies : Nat → Nat → List Nat
  | 0, _ => []
  | n + 1, s => (s + g.fsize) :: copies n (s + g.fsize)

def mirrors (s : Nat) : List Nat := if g.InTable s then g.copies (g.nFats - 1) s else []

theorem copyFats_eq (win : Sector) (n s : Nat) (d : Drive Sector) :
    copyFats g win n s d = d.spread win (g.copies n s) := by
  induction n generalizing s d with
  | zero => rfl
  | succ n ih => exact ih ..

/-- The sectors of the volume are numbered below the number that means none. -/
theorem tables_lt : g.fatbase + g.nFats * g.fsize + 1 < 2 ^ 32 := by
  have hcsize : 1 ≤ (g.nFatent - 2) * g.csize := by
    obtain ⟨k, -, hk⟩ := g.csizePow
    have hpos : 0 < g.csize := by rw [hk]; exact Nat.two_pow_pos k
    exact Nat.mul_pos (by have := g.someCluster; omega) hpos
  have := g.tablesBelow
  have := g.dataBelow
  omega

theorem mem_mirrors_iff {s m : Nat} :
    m ∈ g.mirrors s ↔ g.nFats = 2 ∧ g.InTable s ∧ m = s + g.fsize := by
  obtain h | h := g.oneOrTwo
  · unfold mirrors copies
    simp [h]
  · unfold mirrors
    by_cases hs : g.InTable s
    · simp [h, hs, copies]
    · simp [hs]

theorem layout : Window.Layout g.home g.parked g.mirrors := by
  refine ⟨fun b hb hp => ?_, fun b _ m hm hhome => ?_, fun b c _ _ hne m hb hc => ?_⟩
  · obtain rfl | hi := hp
    · exact Nat.lt_irrefl _ hb.1
    · exact hb.2.2 hi
  · obtain ⟨htwo, hb, rfl⟩ := g.mem_mirrors_iff.mp hm
    refine hhome.2.1 ?_
    rw [htwo]
    have := hb.1
    have := hb.2
    omega
  · obtain ⟨-, -, rfl⟩ := g.mem_mirrors_iff.mp hb
    obtain ⟨-, -, h⟩ := g.mem_mirrors_iff.mp hc
    omega

theorem home_of_inTable {s : Nat} (h : g.InTable s) : g.home s := by
  have htables := g.tables_lt
  have hle : g.fsize ≤ g.nFats * g.fsize := by
    obtain h | h := g.oneOrTwo <;> rw [h] <;> omega
  refine ⟨?_, fun hmirror => ?_, fun hi => ?_⟩
  · show s < 0xFFFFFFFF
    have := h.2
    omega
  · have := h.2
    omega
  · have := h.1
    have := hi.2
    omega

/-- The unsigned difference tells the table's sectors. -/
theorem dwordSub_lt_iff {s : Nat} (hs : s < 2 ^ 32) :
    dwordSub s g.fatbase < g.fsize ↔ g.InTable s := by
  have htables := g.tables_lt
  have hle : g.fsize ≤ g.nFats * g.fsize := by
    obtain h | h := g.oneOrTwo <;> rw [h] <;> omega
  unfold dwordSub InTable
  omega

theorem parked_noSector : g.parked noSector := Or.inl rfl

def Coherent (v : Volume) : Prop := Window.Coherent g.home g.parked v.toWindow

def Mirrored (v : Volume) : Prop := Window.Mirrored g.home g.mirrors v.toWindow

theorem mounted_coherent (d : Drive Sector) : g.Coherent (mounted d) :=
  ⟨Or.inl g.parked_noSector, fun _ h => absurd g.parked_noSector h, fun _ => rfl⟩

variable {g} {v : Volume}

theorem Coherent.winsect_lt (h : g.Coherent v) : v.winsect < 2 ^ 32 := by
  obtain (h | h) | h := h.placed
  · rw [h]; decide
  · have := h.2
    have := g.tables_lt
    omega
  · exact Nat.lt_trans h.1 (by decide)

end Geometry

variable {g : Geometry} {v v' v'' : Volume}

theorem syncWindow_eq (h : v.winsect < 2 ^ 32) :
    syncWindow g v = (.ofDisk (v.flush g.mirrors).1,
      { v with toWindow := (v.flush g.mirrors).2 }) := by
  unfold syncWindow Window.flush
  cases v.wflag with
  | false => rfl
  | true =>
      obtain hw | ⟨-, junk, hw⟩ := v.disk.write_cases (fun _ => v.win) v.winsect 1
      · rw [hw]
        by_cases ht : g.InTable v.winsect
        · have hmirrors : g.mirrors v.winsect = g.copies (g.nFats - 1) v.winsect := if_pos ht
          simp only [if_pos ((g.dwordSub_lt_iff h).mpr ht), hmirrors, ← g.copyFats_eq]
          rfl
        · have hmirrors : g.mirrors v.winsect = [] := if_neg ht
          simp only [if_neg (mt (g.dwordSub_lt_iff h).mp ht), hmirrors]
          rfl
      · rw [hw]; rfl

theorem moveWindow_eq (h : v.winsect < 2 ^ 32) (s : Nat) :
    moveWindow g v s = (.ofDisk (v.move g.mirrors noSector s).1,
      { v with toWindow := (v.move g.mirrors noSector s).2 }) := by
  unfold moveWindow Window.move
  by_cases hs : s = v.winsect
  · rw [if_neg (not_not_intro hs), if_pos hs]; rfl
  · rw [if_pos hs, if_neg hs, syncWindow_eq h]
    obtain ⟨ok, w⟩ := v.flush g.mirrors
    cases ok with
    | false => rfl
    | true =>
        rcases hread : w.disk.read s with ⟨ok, buf, d⟩
        cases ok with
        | false => simp only [FResult.ofDisk, hread]
        | true => simp only [FResult.ofDisk, hread]

/-! ## What an access to the table keeps -/

/-- The window may have moved into the table, and no sector outside of it is changed. -/
structure Kept (g : Geometry) (v v' : Volume) : Prop where
  coherent : g.Coherent v'
  after : v.disk.After v'.disk
  placed : v'.winsect = v.winsect ∨ v'.winsect = noSector ∨ g.InTable v'.winsect
  offTable : ∀ s, g.home s → ¬g.InTable s → v'.view s = v.view s
  mirrored : v.disk.Reliable → g.Mirrored v → g.Mirrored v'

theorem Kept.refl (h : g.Coherent v) : Kept g v v :=
  ⟨h, Drive.After.refl _, Or.inl rfl, fun _ _ _ => rfl, fun _ hm => hm⟩

theorem Kept.trans (h : Kept g v v') (h' : Kept g v' v'') : Kept g v v'' where
  coherent := h'.coherent
  after := h.after.trans h'.after
  placed := by
    obtain hp | hp := h'.placed
    · rw [hp]; exact h.placed
    · exact Or.inr hp
  offTable s hs hst := (h'.offTable s hs hst).trans (h.offTable s hs hst)
  mirrored hr hm := h'.mirrored (hr.after h.after) (h.mirrored hr hm)

/-- Nothing is changed at all. -/
structure Shown (g : Geometry) (v v' : Volume) : Prop extends Kept g v v' where
  view : ∀ s, g.home s → v'.view s = v.view s
  hints : v'.hints = v.hints

theorem Shown.refl (h : g.Coherent v) : Shown g v v := ⟨Kept.refl h, fun _ _ => rfl, rfl⟩

theorem Shown.trans (h : Shown g v v') (h' : Shown g v' v'') : Shown g v v'' :=
  ⟨h.toKept.trans h'.toKept, fun s hs => (h'.view s hs).trans (h.view s hs),
    h'.hints.trans h.hints⟩

/-- `move_window` to a sector of the table arrives, or fails with nothing changed. -/
theorem moveWindow_cases (hv : g.Coherent v) {s : Nat} (hs : g.InTable s) :
    ∃ v', Shown g v v' ∧
      ((moveWindow g v s = (.ok, v') ∧ v'.winsect = s) ∨
        (¬v.disk.Reliable ∧ moveWindow g v s = (.diskErr, v'))) := by
  have hhome := g.home_of_inTable hs
  have heq := moveWindow_eq (g := g) hv.winsect_lt s
  refine ⟨{ v with toWindow := (v.move g.mirrors noSector s).2 }, ⟨?_,
    fun b hb => Window.move_view g.layout g.parked_noSector hv hb, rfl⟩, ?_⟩
  · refine ⟨Window.move_coherent g.layout g.parked_noSector hv hhome,
      Window.after_move v.toWindow s, ?_,
      fun b hb _ => Window.move_view g.layout g.parked_noSector hv hb,
      fun hr hm => Window.move_mirrored g.layout hv hr hm⟩
    obtain ⟨-, h⟩ | ⟨-, -, d, -, -, h⟩ | ⟨-, -, -, junk, d, -, -, h⟩ | ⟨-, -, h⟩ :=
      Window.move_cases g.mirrors noSector v.toWindow s
    · rw [h]; exact Or.inl rfl
    · rw [h]; exact Or.inr (Or.inr hs)
    · rw [h]; exact Or.inr (Or.inl rfl)
    · rw [h]; exact Or.inl (Window.flush_winsect ..)
  · cases hok : (v.move g.mirrors noSector s).1 with
    | true =>
        rw [hok] at heq
        exact Or.inl ⟨heq, Window.move_winsect hok⟩
    | false =>
        rw [hok] at heq
        refine Or.inr ⟨fun hr => ?_, heq⟩
        have hsure := Window.move_of_reliable g.mirrors noSector s hr
        rw [hsure] at hok
        cases hok

/-! ## The table through the window -/

namespace Geometry

variable (g)

/-- The bytes of the table. -/
def bytes (v : Volume) (i : Nat) : UInt8 := byteIn (v.view (g.fatbase + i / 512)) i

/-- The entries of the table. -/
def entries (v : Volume) (c : Nat) : Nat := g.fsType.entry (g.bytes v) c

/-- The clusters of the volume. -/
def IsCluster (c : Nat) : Prop := 2 ≤ c ∧ c < g.nFatent

instance (c : Nat) : Decidable (g.IsCluster c) := inferInstanceAs (Decidable (_ ∧ _))

variable {g} {c i : Nat}

theorem inTable_of_byte (h : i < g.fsize * 512) : g.InTable (g.fatbase + i / 512) :=
  ⟨Nat.le_add_right .., by omega⟩

/-- An entry lies in the table. -/
theorem IsCluster.bytes_lt (h : g.IsCluster c) :
    g.fsType.start c + g.fsType.width ≤ g.fsize * 512 := by
  have hfits := g.tableFits
  have := h.2
  cases ht : g.fsType <;> rw [ht] at hfits <;>
    simp only [FsType.tableBytes, FsType.start, FsType.width] at * <;> omega

theorem entries_congr (hc : g.IsCluster c)
    (h : ∀ i, i < g.fsize * 512 → g.bytes v' i = g.bytes v i) :
    g.entries v' c = g.entries v c :=
  FsType.entry_congr fun j _ hj => h j (Nat.lt_of_lt_of_le hj hc.bytes_lt)

theorem bytes_of_view (h : ∀ b, g.home b → v'.view b = v.view b) (hi : i < g.fsize * 512) :
    g.bytes v' i = g.bytes v i := by
  unfold bytes
  rw [h _ (g.home_of_inTable (inTable_of_byte hi))]

theorem byteAt_win (h : v.winsect = g.fatbase + i / 512) :
    byteAt v.win i = (g.bytes v i).toNat := by
  unfold bytes
  rw [← h, Window.view_self]
  rfl

end Geometry

theorem ofNat_mod_add (i k : Nat) : Fin.ofNat 512 (i % 512 + k) = Fin.ofNat 512 (i + k) :=
  Fin.ext (by show (i % 512 + k) % 512 = (i + k) % 512; omega)

theorem byteAt_mod_add (s : Sector) (i k : Nat) : byteAt s (i % 512 + k) = byteAt s (i + k) := by
  rw [byteAt, byteIn, ofNat_mod_add, byteAt, byteIn]

theorem setByte_mod_add (i k x : Nat) : setByte (i % 512 + k) x = setByte (i + k) x := by
  funext s
  rw [setByte, ofNat_mod_add, setByte]

/-- A byte of the table written through the window. -/
theorem bytes_change {i : Nat} (h : v.winsect = g.fatbase + i / 512) (x : Nat) :
    g.bytes (v.change (setByte i x)) = Function.update (g.bytes v) i (UInt8.ofNat x) := by
  funext j
  show byteIn ((v.toWindow.edit (setByte i x)).view (g.fatbase + j / 512)) j = _
  rw [Window.edit_view]
  by_cases hj : j = i
  · subst hj
    rw [h, Function.update_self, Function.update_self]
    exact Function.update_self ..
  rw [Function.update_of_ne hj]
  by_cases hsect : g.fatbase + j / 512 = v.winsect
  · have hne : Fin.ofNat 512 j ≠ Fin.ofNat 512 i := by
      intro he
      have : j % 512 = i % 512 := congrArg Fin.val he
      omega
    rw [hsect, Function.update_self, Geometry.bytes, hsect, Window.view_self]
    exact Function.update_of_ne hne ..
  · rw [Function.update_of_ne hsect]
    rfl

theorem kept_change (ht : g.InTable v.winsect) (f : Sector → Sector) :
    Kept g v (v.change f) where
  coherent := Window.edit_coherent g.layout (g.home_of_inTable ht) f
  after := Drive.After.refl _
  placed := Or.inl rfl
  offTable s hs hst := by
    have hne : s ≠ v.winsect := fun he => hst (he ▸ ht)
    show (v.toWindow.edit f).view s = _
    rw [Window.edit_view, Function.update_of_ne hne]
  mirrored hr hm := Window.edit_mirrored hm f

/-! ## Reading and writing an entry -/

theorem stWord_eq (v : Volume) (i val : Nat) :
    v.change (stWord i val) = (v.change (setByte i val)).change (setByte (i + 1) (val >>> 8)) :=
  rfl

theorem stDword_eq (v : Volume) (i val : Nat) :
    v.change (stDword i val) =
      ((v.change (stWord i val)).change (setByte (i + 2) (val >>> 16))).change
        (setByte (i + 3) (val >>> 24)) := rfl

/-- The window moved to a byte of the table: there the bytes of its sector are in it. -/
theorem moveWindow_byte (hv : g.Coherent v) {i : Nat} (hi : i < g.fsize * 512) :
    ∃ v', Shown g v v' ∧
      ((moveWindow g v (g.fatbase + i / 512) = (.ok, v') ∧
          v'.winsect = g.fatbase + i / 512 ∧
          ∀ j, j / 512 = i / 512 → byteAt v'.win j = (g.bytes v j).toNat) ∨
        (¬v.disk.Reliable ∧ moveWindow g v (g.fatbase + i / 512) = (.diskErr, v'))) := by
  obtain ⟨v', hs, ⟨h, hat⟩ | hbad⟩ := moveWindow_cases hv (Geometry.inTable_of_byte hi)
  · refine ⟨v', hs, Or.inl ⟨h, hat, fun j hj => ?_⟩⟩
    rw [Geometry.byteAt_win (by rw [hat, hj]), Geometry.bytes_of_view hs.view (by omega)]
  · exact ⟨v', hs, Or.inr hbad⟩

variable {c : Nat}

theorem getFat_range (hc : g.IsCluster c) : ¬(c < 2 ∨ g.nFatent ≤ c) := by
  have := hc.1
  have := hc.2
  omega

theorem getFat12_cases (ht : g.fsType = .fat12) (hv : g.Coherent v) (hc : g.IsCluster c) :
    ∃ v', Shown g v v' ∧ (getFat g v c = (g.entries v c, v') ∨
      (¬v.disk.Reliable ∧ getFat g v c = (diskError, v'))) := by
  have hreach := hc.bytes_lt
  simp only [ht, FsType.start, FsType.width] at hreach
  simp only [getFat, if_neg (getFat_range hc), ht]
  obtain ⟨v₁, hs₁, ⟨h₁, hat₁, hread₁⟩ | ⟨hbad, h₁⟩⟩ :=
    moveWindow_byte hv (show c + c / 2 < _ by omega)
  · obtain ⟨v₂, hs₂, ⟨h₂, hat₂, hread₂⟩ | ⟨hbad, h₂⟩⟩ :=
      moveWindow_byte hs₁.coherent (show c + c / 2 + 1 < _ by omega)
    · refine ⟨v₂, hs₁.trans hs₂, Or.inl ?_⟩
      have hhi := hread₂ _ rfl
      rw [Geometry.bytes_of_view hs₁.view (by omega)] at hhi
      have hlt : (g.bytes v (c + c / 2)).toNat < 256 := UInt8.toNat_lt _
      have hmask : ∀ n, n &&& 0xFFF = n % 2 ^ 12 := fun n =>
        Nat.and_two_pow_sub_one_eq_mod n 12
      simp only [h₁, h₂, hread₁ _ rfl, hhi, or_shift8 hlt, Geometry.entries, ht, FsType.entry,
        FsType.start, and_one_ne_zero_iff, Nat.shiftRight_eq_div_pow, hmask]
      refine Prod.ext ?_ rfl
      by_cases hodd : c % 2 = 1
      · simp only [if_pos hodd]
        omega
      · simp only [if_neg hodd]
        omega
    · refine ⟨v₂, hs₁.trans hs₂, Or.inr ⟨fun hr => hbad (hr.after hs₁.after), ?_⟩⟩
      simp only [h₁, h₂]
  · refine ⟨v₁, hs₁, Or.inr ⟨hbad, ?_⟩⟩
    simp only [h₁]

theorem getFat16_cases (ht : g.fsType = .fat16) (hv : g.Coherent v) (hc : g.IsCluster c) :
    ∃ v', Shown g v v' ∧ (getFat g v c = (g.entries v c, v') ∨
      (¬v.disk.Reliable ∧ getFat g v c = (diskError, v'))) := by
  have hreach := hc.bytes_lt
  simp only [ht, FsType.start, FsType.width] at hreach
  have hsect : c / (512 / 2) = c * 2 / 512 := by omega
  simp only [getFat, if_neg (getFat_range hc), ht, hsect]
  obtain ⟨v', hs, ⟨h, -, hread⟩ | ⟨hbad, h⟩⟩ := moveWindow_byte hv (show c * 2 < _ by omega)
  · refine ⟨v', hs, Or.inl ?_⟩
    have hlo := byteAt_mod_add v'.win (c * 2) 0
    rw [hread (c * 2 + 0) rfl] at hlo
    have hhi := byteAt_mod_add v'.win (c * 2) 1
    rw [hread (c * 2 + 1) (by omega)] at hhi
    simp only [Nat.add_zero] at hlo
    simp only [h, ldWord_eq, hlo, hhi, Geometry.entries, ht, FsType.entry, FsType.start]
  · refine ⟨v', hs, Or.inr ⟨hbad, ?_⟩⟩
    simp only [h]

theorem getFat32_cases (ht : g.fsType = .fat32) (hv : g.Coherent v) (hc : g.IsCluster c) :
    ∃ v', Shown g v v' ∧ (getFat g v c = (g.entries v c, v') ∨
      (¬v.disk.Reliable ∧ getFat g v c = (diskError, v'))) := by
  have hreach := hc.bytes_lt
  simp only [ht, FsType.start, FsType.width] at hreach
  have hsect : c / (512 / 4) = c * 4 / 512 := by omega
  simp only [getFat, if_neg (getFat_range hc), ht, hsect]
  obtain ⟨v', hs, ⟨h, -, hread⟩ | ⟨hbad, h⟩⟩ := moveWindow_byte hv (show c * 4 < _ by omega)
  · refine ⟨v', hs, Or.inl ?_⟩
    have hbyte : ∀ k, k < 4 →
        byteAt v'.win (c * 4 % 512 + k) = (g.bytes v (c * 4 + k)).toNat := by
      intro k hk
      rw [byteAt_mod_add, hread _ (by omega)]
    have hlo := hbyte 0 (by omega)
    simp only [Nat.add_zero] at hlo
    have hmask : ∀ n, n &&& 0x0FFFFFFF = n % 2 ^ 28 := fun n =>
      Nat.and_two_pow_sub_one_eq_mod n 28
    simp only [h, ldDword_eq, hmask, hlo, hbyte 1 (by omega), hbyte 2 (by omega),
      hbyte 3 (by omega), Geometry.entries, ht, FsType.entry, FsType.start]
  · refine ⟨v', hs, Or.inr ⟨hbad, ?_⟩⟩
    simp only [h]

/-- `get_fat` returns the entry the window shows, or a disk error. -/
theorem getFat_cases (hv : g.Coherent v) (hc : g.IsCluster c) :
    ∃ v', Shown g v v' ∧ (getFat g v c = (g.entries v c, v') ∨
      (¬v.disk.Reliable ∧ getFat g v c = (diskError, v'))) := by
  cases ht : g.fsType with
  | fat12 => exact getFat12_cases ht hv hc
  | fat16 => exact getFat16_cases ht hv hc
  | fat32 => exact getFat32_cases ht hv hc

theorem getFat_shown (hv : g.Coherent v) (c : Nat) : Shown g v (getFat g v c).2 := by
  by_cases hc : g.IsCluster c
  · obtain ⟨v', hs, he | ⟨-, he⟩⟩ := getFat_cases hv hc
    · rw [he]; exact hs
    · rw [he]; exact hs
  · have hrange : c < 2 ∨ g.nFatent ≤ c := by
      unfold Geometry.IsCluster at hc
      omega
    rw [getFat, if_pos hrange]
    exact Shown.refl hv

theorem moveWindow_home (hv : g.Coherent v) {s : Nat} (hs : g.home s) :
    g.Coherent (moveWindow g v s).2 ∧ v.disk.After (moveWindow g v s).2.disk ∧
      (moveWindow g v s).2.hints = v.hints ∧
      ∀ b, g.home b → (moveWindow g v s).2.view b = v.view b := by
  rw [moveWindow_eq hv.winsect_lt]
  exact ⟨Window.move_coherent g.layout g.parked_noSector hv hs, Window.after_move v.toWindow s, rfl,
    fun b hb => Window.move_view g.layout g.parked_noSector hv hb⟩

/-- The entry lies across two sectors. -/
def Geometry.Straddles (g : Geometry) (c : Nat) : Prop :=
  g.fsType = .fat12 ∧ (c + c / 2) % 512 = 511

instance (g : Geometry) (c : Nat) : Decidable (g.Straddles c) :=
  inferInstanceAs (Decidable (_ ∧ _))

/-- What `put_fat` may come to: the entry stored, nothing done, or a half of it stored. -/
def PutOutcome (g : Geometry) (v : Volume) (c val : Nat) (out : FResult × Volume) : Prop :=
  Kept g v out.2 ∧ out.2.hints = v.hints ∧
    ((out.1 = .ok ∧
        ∀ i, i < g.fsize * 512 → g.bytes out.2 i = g.fsType.store (g.bytes v) c val i) ∨
      (out.1 = .diskErr ∧ ¬v.disk.Reliable ∧
        ∀ i, i < g.fsize * 512 → g.bytes out.2 i = g.bytes v i) ∨
      (out.1 = .diskErr ∧ ¬v.disk.Reliable ∧ g.Straddles c ∧
        ∀ i, i < g.fsize * 512 → g.bytes out.2 i = FsType.half (g.bytes v) c val i))

variable {val : Nat}

theorem update_agree {f f' : Nat → UInt8} {n : Nat} (h : ∀ i, i < n → f i = f' i) {k : Nat}
    {x y : UInt8} (hxy : x = y) :
    ∀ i, i < n → Function.update f k x i = Function.update f' k y i := by
  intro i hi
  subst hxy
  by_cases hk : i = k
  · rw [hk, Function.update_self, Function.update_self]
  · rw [Function.update_of_ne hk, Function.update_of_ne hk, h i hi]

theorem ofNat_congr {m n : Nat} (h : m % 256 = n % 256) : UInt8.ofNat m = UInt8.ofNat n := by
  apply UInt8.toNat_inj.mp
  rw [FsType.toNat_byte, FsType.toNat_byte, h]

theorem ofNat_first12 {w : Volume} {lo : Nat} (h : lo = (g.bytes v (c + c / 2)).toNat)
    (hw : g.bytes w (c + c / 2) = g.bytes v (c + c / 2)) :
    UInt8.ofNat (if c &&& 1 ≠ 0 then (lo &&& 0x0F) ||| (val % 256) <<< 4 else val) =
      UInt8.ofNat (FsType.first12 (g.bytes w) c val) := by
  apply UInt8.toNat_inj.mp
  simp only [FsType.toNat_byte, FsType.first12, and_one_ne_zero_iff, hw, ← h]
  by_cases hodd : c % 2 = 1
  · rw [if_pos hodd, if_pos hodd, lowNibble_or]
    omega
  · rw [if_neg hodd, if_neg hodd]
    omega

theorem ofNat_second12 {hi : Nat} {b : Nat → UInt8} (h : hi = (b (c + c / 2 + 1)).toNat) :
    UInt8.ofNat (if c &&& 1 ≠ 0 then val >>> 4
      else (hi &&& 0xF0) ||| ((val >>> 8) % 256 &&& 0x0F)) =
      UInt8.ofNat (FsType.second12 b c val) := by
  have hlt : hi < 256 := by rw [h]; exact UInt8.toNat_lt _
  simp only [FsType.second12, and_one_ne_zero_iff, ← h, highNibble_or hlt,
    Nat.shiftRight_eq_div_pow]

theorem putFat12_outcome (ht : g.fsType = .fat12) (hv : g.Coherent v) (hc : g.IsCluster c) :
    PutOutcome g v c val (putFat g v c val) := by
  have hreach := hc.bytes_lt
  simp only [ht, FsType.start, FsType.width] at hreach
  simp only [putFat, if_neg (getFat_range hc), ht]
  obtain ⟨v₁, hs₁, ⟨h₁, hat₁, hread₁⟩ | ⟨hbad, h₁⟩⟩ :=
    moveWindow_byte hv (show c + c / 2 < _ by omega)
  · have htable₁ : g.InTable v₁.winsect := by
      rw [hat₁]; exact Geometry.inTable_of_byte (by omega)
    have hsame₁ : ∀ i, i < g.fsize * 512 → g.bytes v₁ i = g.bytes v i := fun i hi =>
      Geometry.bytes_of_view hs₁.view hi
    simp only [h₁]
    generalize hx : (if c &&& 1 ≠ 0 then (byteAt v₁.win (c + c / 2) &&& 0x0F) |||
      (val % 256) <<< 4 else val) = x
    have hfirst : UInt8.ofNat x = UInt8.ofNat (FsType.first12 (g.bytes v) c val) := by
      rw [← hx]
      exact ofNat_first12 (hread₁ _ rfl) rfl
    have hk₁ := kept_change htable₁ (setByte (c + c / 2) x)
    have hhalf : ∀ i, i < g.fsize * 512 →
        g.bytes (v₁.change (setByte (c + c / 2) x)) i = FsType.half (g.bytes v) c val i := by
      rw [bytes_change hat₁]
      exact update_agree hsame₁ hfirst
    obtain ⟨v₂, hs₂, ⟨h₂, hat₂, hread₂⟩ | ⟨hbad, h₂⟩⟩ :=
      moveWindow_byte hk₁.coherent (show c + c / 2 + 1 < _ by omega)
    · have htable₂ : g.InTable v₂.winsect := by
        rw [hat₂]; exact Geometry.inTable_of_byte (by omega)
      have hsame₂ : ∀ i, i < g.fsize * 512 → g.bytes v₂ i = FsType.half (g.bytes v) c val i :=
        fun i hi => (Geometry.bytes_of_view hs₂.view hi).trans (hhalf i hi)
      simp only [h₂]
      refine ⟨(hs₁.toKept.trans hk₁).trans (hs₂.toKept.trans (kept_change htable₂ _)),
        hs₂.hints.trans hs₁.hints, Or.inl ⟨rfl, ?_⟩⟩
      rw [bytes_change hat₂, ht]
      simp only [FsType.store, FsType.start]
      refine update_agree hsame₂ (ofNat_second12 ?_)
      rw [hread₂ _ rfl, hhalf _ (by omega), FsType.half, Function.update_of_ne (by omega)]
    · simp only [h₂]
      refine ⟨(hs₁.toKept.trans hk₁).trans hs₂.toKept, hs₂.hints.trans hs₁.hints,
        Or.inr (Or.inr ⟨rfl, fun hr =>
        hbad (hr.after (hs₁.after.trans hk₁.after)), ⟨ht, ?_⟩, fun i hi =>
        (Geometry.bytes_of_view hs₂.view hi).trans (hhalf i hi)⟩)⟩
      -- the second move only fails if it has somewhere to go
      by_contra hsame
      have hhere : g.fatbase + (c + c / 2 + 1) / 512 =
          (v₁.change (setByte (c + c / 2) x)).winsect := by
        show _ = v₁.winsect
        omega
      rw [moveWindow, if_neg (not_not_intro hhere)] at h₂
      cases h₂
  · simp only [h₁]
    exact ⟨hs₁.toKept, hs₁.hints, Or.inr (Or.inl ⟨rfl, hbad, fun i hi =>
      Geometry.bytes_of_view hs₁.view hi⟩)⟩

theorem bytes_change_word {i : Nat} (h : v.winsect = g.fatbase + i / 512) (hi : i % 2 = 0)
    (x : Nat) :
    g.bytes (v.change (stWord (i % 512) x)) = Function.update (Function.update (g.bytes v)
      i (UInt8.ofNat x)) (i + 1) (UInt8.ofNat (x >>> 8)) := by
  have h' : (v.change (setByte i x)).winsect = g.fatbase + (i + 1) / 512 := by
    show v.winsect = _
    omega
  have hmod := setByte_mod_add i 0 x
  simp only [Nat.add_zero] at hmod
  rw [stWord_eq, setByte_mod_add, hmod, bytes_change h', bytes_change h]

theorem bytes_change_dword {i : Nat} (h : v.winsect = g.fatbase + i / 512) (hi : i % 4 = 0)
    (x : Nat) :
    g.bytes (v.change (stDword (i % 512) x)) = Function.update (Function.update
      (Function.update (Function.update (g.bytes v)
        i (UInt8.ofNat x)) (i + 1) (UInt8.ofNat (x >>> 8)))
        (i + 2) (UInt8.ofNat (x >>> 16))) (i + 3) (UInt8.ofNat (x >>> 24)) := by
  have h2 : (v.change (stWord (i % 512) x)).winsect = g.fatbase + (i + 2) / 512 := by
    show v.winsect = _
    omega
  have h3 : ((v.change (stWord (i % 512) x)).change (setByte (i + 2) (x >>> 16))).winsect =
      g.fatbase + (i + 3) / 512 := by
    show v.winsect = _
    omega
  rw [stDword_eq, setByte_mod_add, setByte_mod_add, bytes_change h3, bytes_change h2,
    bytes_change_word h (by omega)]

theorem putFat16_outcome (ht : g.fsType = .fat16) (hv : g.Coherent v) (hc : g.IsCluster c) :
    PutOutcome g v c val (putFat g v c val) := by
  have hreach := hc.bytes_lt
  simp only [ht, FsType.start, FsType.width] at hreach
  have hsect : c / (512 / 2) = c * 2 / 512 := by omega
  simp only [putFat, if_neg (getFat_range hc), ht, hsect]
  obtain ⟨v', hs, ⟨h, hat, -⟩ | ⟨hbad, h⟩⟩ := moveWindow_byte hv (show c * 2 < _ by omega)
  · have htable : g.InTable v'.winsect := by
      rw [hat]; exact Geometry.inTable_of_byte (by omega)
    simp only [h]
    refine ⟨hs.toKept.trans (kept_change htable _), hs.hints, Or.inl ⟨rfl, ?_⟩⟩
    rw [bytes_change_word hat (by omega), ht]
    refine update_agree (update_agree (fun i hi => Geometry.bytes_of_view hs.view hi) ?_) ?_
    · exact ofNat_congr (by omega)
    · rw [Nat.shiftRight_eq_div_pow]
      exact ofNat_congr (by omega)
  · simp only [h]
    exact ⟨hs.toKept, hs.hints, Or.inr (Or.inl ⟨rfl, hbad, fun i hi =>
      Geometry.bytes_of_view hs.view hi⟩)⟩

theorem putFat32_outcome (ht : g.fsType = .fat32) (hv : g.Coherent v) (hc : g.IsCluster c) :
    PutOutcome g v c val (putFat g v c val) := by
  have hreach := hc.bytes_lt
  simp only [ht, FsType.start, FsType.width] at hreach
  have hsect : c / (512 / 4) = c * 4 / 512 := by omega
  simp only [putFat, if_neg (getFat_range hc), ht, hsect]
  obtain ⟨v', hs, ⟨h, hat, hread⟩ | ⟨hbad, h⟩⟩ := moveWindow_byte hv (show c * 4 < _ by omega)
  · have htable : g.InTable v'.winsect := by
      rw [hat]; exact Geometry.inTable_of_byte (by omega)
    have hlast : byteAt v'.win (c * 4 % 512 + 3) = (g.bytes v (c * 4 + 3)).toNat := by
      rw [byteAt_mod_add, hread _ (by omega)]
    simp only [h]
    refine ⟨hs.toKept.trans (kept_change htable _), hs.hints, Or.inl ⟨rfl, ?_⟩⟩
    rw [bytes_change_dword hat (by omega), ht]
    refine update_agree (update_agree (update_agree (update_agree (fun i hi =>
      Geometry.bytes_of_view hs.view hi) ?_) ?_) ?_) ?_
    · exact ofNat_congr (or_kept_mod val v'.win _ (Nat.zero_le 16))
    · rw [← Nat.shiftRight_eq_div_pow]
      exact ofNat_congr (or_kept_mod val v'.win _ (by omega))
    · rw [← Nat.shiftRight_eq_div_pow]
      exact ofNat_congr (or_kept_mod val v'.win _ (Nat.le_refl 16))
    · rw [or_kept_shift, hlast]
      rfl
  · simp only [h]
    exact ⟨hs.toKept, hs.hints, Or.inr (Or.inl ⟨rfl, hbad, fun i hi =>
      Geometry.bytes_of_view hs.view hi⟩)⟩

theorem putFat_outcome (hv : g.Coherent v) (hc : g.IsCluster c) (val : Nat) :
    PutOutcome g v c val (putFat g v c val) := by
  cases ht : g.fsType with
  | fat12 => exact putFat12_outcome ht hv hc
  | fat16 => exact putFat16_outcome ht hv hc
  | fat32 => exact putFat32_outcome ht hv hc

/-- What `put_fat` does to the entries: the one is replaced, or an error is returned and at
most a straddling entry is changed. -/
theorem putFat_entries (hv : g.Coherent v) (hc : g.IsCluster c) (val : Nat) :
    let out := putFat g v c val
    Kept g v out.2 ∧ out.2.hints = v.hints ∧
      (∀ a, g.IsCluster a → a ≠ c → g.entries out.2 a = g.entries v a) ∧
      ((out.1 = .ok ∧ g.entries out.2 c = val % g.fsType.modulus) ∨
        (out.1 = .diskErr ∧ ¬v.disk.Reliable ∧
          (¬g.Straddles c → g.entries out.2 c = g.entries v c))) := by
  intro out
  have hentries : ∀ {b : Nat → UInt8}, (∀ i, i < g.fsize * 512 → g.bytes out.2 i = b i) →
      ∀ a, g.IsCluster a → g.entries out.2 a = g.fsType.entry b a := fun h a ha =>
    FsType.entry_congr fun j _ hj => h j (Nat.lt_of_lt_of_le hj ha.bytes_lt)
  obtain ⟨hk, hh, ⟨hok, hb⟩ | ⟨herr, hbad, hb⟩ | ⟨herr, hbad, hcut, hb⟩⟩ :=
    putFat_outcome hv hc val
  · refine ⟨hk, hh, fun a ha hne => ?_, Or.inl ⟨hok, ?_⟩⟩
    · rw [hentries hb a ha, FsType.entry_store_of_ne hne, Geometry.entries]
    · rw [hentries hb c hc, FsType.entry_store_self]
  · exact ⟨hk, hh, fun a ha _ => hentries hb a ha,
      Or.inr ⟨herr, hbad, fun _ => hentries hb c hc⟩⟩
  · refine ⟨hk, hh, fun a ha hne => ?_, Or.inr ⟨herr, hbad, fun hno => absurd hcut hno⟩⟩
    rw [hentries hb a ha, Geometry.entries, hcut.1, FsType.entry_half_of_ne hne]

end Fat
end ImuFirmware
