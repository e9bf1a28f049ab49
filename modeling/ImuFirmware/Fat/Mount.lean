/-
`find_volume`, from the boot sector on.

What is read from the drive is checked before anything is taken from it, but in `DWORD`s,
which wrap.  A volume that is mounted has the geometry that the rest relies on exactly if
none of the sums did, and its window shows what the drive holds.
-/
import ImuFirmware.Fat.Entry

namespace ImuFirmware
namespace Fat

open Storage

/-- `move_window` with nothing to write back. -/
def loadSector (v : Volume) (sector : Nat) : Bool × Volume :=
  if sector ≠ v.winsect then
    match v.disk.read sector with
    | (true, buf, d) => (true, { v with win := buf 0, winsect := sector, disk := d })
    | (false, buf, d) => (false, { v with win := buf 0, winsect := noSector, disk := d })
  else (true, v)

/-- `check_fs`: 0 for a boot sector of a FAT volume, 1 for another one, 2 for none, 3 for a
disk error. -/
def checkFs (v : Volume) (sect : Nat) : Nat × Volume :=
  match loadSector { v with wflag := false, winsect := noSector } sect with
  | (false, v) => (3, v)
  | (true, v) =>
      if ldWord v.win 510 ≠ 0xAA55 then (2, v)
      else if ldDword v.win 54 &&& 0xFFFFFF = 0x544146 then (0, v)
      else if ldDword v.win 82 &&& 0xFFFFFF = 0x544146 then (0, v)
      else (1, v)

/-- Where the partitions start, 0 for none. -/
def partitions (win : Sector) : List Nat :=
  (List.range 4).map fun i =>
    if byteAt win (446 + i * 16 + 4) ≠ 0 then ldDword win (446 + i * 16 + 8) else 0

/-- The check of a partition. -/
def checkPartition (v : Volume) (bsect : Nat) : Nat × Volume :=
  if bsect ≠ 0 then checkFs v bsect else (2, v)

/-- The loop over the partitions, with the last sector that was looked at. -/
def probe (v : Volume) (bsect : Nat) : List Nat → Nat × Nat × Volume
  | [] => ((checkPartition v bsect).1, bsect, (checkPartition v bsect).2)
  | b :: br =>
      if (checkPartition v bsect).1 ≠ 0 then probe (checkPartition v bsect).2 b br
      else ((checkPartition v bsect).1, bsect, (checkPartition v bsect).2)

/-- The search for a FAT volume. -/
def locate (v : Volume) : Nat × Nat × Volume :=
  match checkFs v 0 with
  | (1, v) =>
      match partitions v.win with
      | b :: bs => probe v b bs
      | [] => (1, 0, v)
  | (fmt, v) => (fmt, 0, v)

/-! ## The BPB -/

/-- `BPB_FATSz`. -/
def fatSz (win : Sector) : Nat := if ldWord win 22 = 0 then ldDword win 36 else ldWord win 22

/-- `BPB_TotSec`. -/
def totSec (win : Sector) : Nat := if ldWord win 19 = 0 then ldDword win 32 else ldWord win 19

/-- `sysect`. -/
def sysect (win : Sector) : Nat :=
  (ldWord win 14 + fatSz win * byteAt win 16 % 2 ^ 32 + ldWord win 17 / 16) % 2 ^ 32

/-- `nclst`. -/
def nclst (win : Sector) : Nat := (totSec win - sysect win) / byteAt win 13

/-- The sub-type, by the number of clusters. -/
def subType (n : Nat) : FsType :=
  if 65526 ≤ n then .fat32 else if 4086 ≤ n then .fat16 else .fat12

/-- The fields of a FATFS that mounting sets, as it does. -/
structure Mount where
  fsType : FsType
  nFats : Nat
  csize : Nat
  nRootdir : Nat
  nFatent : Nat
  fsize : Nat
  volbase : Nat
  fatbase : Nat
  database : Nat
  dirbase : Nat

def Mount.ofBpb (win : Sector) (bsect : Nat) : Mount where
  fsType := subType (nclst win)
  nFats := byteAt win 16
  csize := byteAt win 13
  nRootdir := ldWord win 17
  nFatent := (nclst win + 2) % 2 ^ 32
  fsize := fatSz win
  volbase := bsect
  fatbase := (bsect + ldWord win 14) % 2 ^ 32
  database := (bsect + sysect win) % 2 ^ 32
  dirbase :=
    if subType (nclst win) = .fat32 then ldDword win 44
    else ((bsect + ldWord win 14) % 2 ^ 32 + fatSz win * byteAt win 16 % 2 ^ 32) % 2 ^ 32

/-- The checks of `find_volume`, in its order. -/
def Accepted (win : Sector) (bsect : Nat) : Prop :=
  ldWord win 11 = 512 ∧
    (byteAt win 16 = 1 ∨ byteAt win 16 = 2) ∧
    (byteAt win 13 ≠ 0 ∧ byteAt win 13 &&& (byteAt win 13 - 1) = 0) ∧
    ldWord win 17 % 16 = 0 ∧
    ldWord win 14 ≠ 0 ∧
    sysect win ≤ totSec win ∧
    nclst win ≠ 0 ∧
    (subType (nclst win) = .fat32 ↔ ldWord win 17 = 0) ∧
    ((Mount.ofBpb win bsect).fsType.tableBytes (Mount.ofBpb win bsect).nFatent % 2 ^ 32 + 511) %
        2 ^ 32 / 512 ≤ fatSz win

instance (win : Sector) (bsect : Nat) : Decidable (Accepted win bsect) :=
  inferInstanceAs (Decidable (_ ∧ _))

/-- The hints, from FSINFO where there is one. -/
def loadHints (m : Mount) (v : Volume) : Volume :=
  if m.fsType = .fat32 ∧ ldWord v.win 48 = 1 then
    match loadSector { v with lastClust := 0xFFFFFFFF, freeClust := 0xFFFFFFFF, fsiFlag := 0x80 }
        ((m.volbase + 1) % 2 ^ 32) with
    | (false, v) => v
    | (true, v) =>
        if ldWord v.win 510 = 0xAA55 ∧ ldDword v.win 0 = 0x41615252 ∧
            ldDword v.win 484 = 0x61417272 then
          { v with fsiFlag := 0, freeClust := ldDword v.win 488, lastClust := ldDword v.win 492 }
        else { v with fsiFlag := 0 }
  else { v with lastClust := 0xFFFFFFFF, freeClust := 0xFFFFFFFF, fsiFlag := 0x80 }

/-- `find_volume`, once the drive is ready. -/
def findVolume (v : Volume) : Except FResult Mount × Volume :=
  match locate v with
  | (fmt, bsect, v) =>
      if fmt = 3 then (.error .diskErr, v)
      else if fmt ≠ 0 then (.error .noFilesystem, v)
      else if Accepted v.win bsect then
        (.ok (.ofBpb v.win bsect), loadHints (.ofBpb v.win bsect) v)
      else (.error .noFilesystem, v)

variable {g : Geometry} {v v' : Volume} {m : Mount} {win : Sector} {b bsect : Nat}

/-! ## Reading -/

theorem moveWindow_unchanged (g : Geometry) (h : v.wflag = false) (sect : Nat) :
    moveWindow g v sect = (FResult.ofDisk (loadSector v sect).1, (loadSector v sect).2) := by
  have hsync : syncWindow g v = (.ok, v) := by
    unfold syncWindow
    rw [if_neg (by rw [h]; exact Bool.false_ne_true)]
  unfold moveWindow loadSector
  rw [hsync]
  by_cases hmove : sect ≠ v.winsect
  · rw [if_pos hmove, if_pos hmove]
    rcases hread : v.disk.read sect with ⟨ok, buf, d⟩
    cases ok
    · simp only [hread]
      rfl
    · simp only [hread]
      rfl
  · rw [if_neg hmove, if_neg hmove]
    rfl

/-- A window that shows what the drive holds. -/
structure Shows (v : Volume) (b : Nat) : Prop where
  clean : v.wflag = false
  winsect : v.winsect = b
  shows : b ≠ noSector → v.disk.data b = v.win

/-- The drive was read, and nothing else. -/
structure Looked (v v' : Volume) : Prop where
  data : v'.disk.data = v.disk.data
  after : v.disk.After v'.disk

theorem Looked.refl (v : Volume) : Looked v v := ⟨rfl, Drive.After.refl _⟩

theorem Looked.trans {v'' : Volume} (h : Looked v v') (h' : Looked v' v'') : Looked v v'' :=
  ⟨h'.data.trans h.data, h.after.trans h'.after⟩

theorem Looked.unreliable (h : Looked v v') (hbad : ¬v'.disk.Reliable) : ¬v.disk.Reliable :=
  fun hr => hbad (hr.after h.after)

theorem loadSector_cases (v : Volume) (hclean : v.wflag = false) (sect : Nat) :
    Looked v (loadSector v sect).2 ∧ (loadSector v sect).2.wflag = false ∧
      ((loadSector v sect).1 = false → (loadSector v sect).2.winsect = noSector ∧
        ¬v.disk.Reliable) ∧
      ((loadSector v sect).1 = true → (∀ b, Shows v b → Shows (loadSector v sect).2 sect) ∧
        (v.winsect = noSector → Shows (loadSector v sect).2 sect)) := by
  unfold loadSector
  by_cases hmove : sect ≠ v.winsect
  rotate_left
  · rw [if_neg hmove]
    rw [not_not] at hmove
    refine ⟨.refl v, hclean, fun h => (by cases h), fun _ => ⟨fun b hb => ?_, fun hnone => ?_⟩⟩
    · rw [hmove, hb.winsect]
      exact hb
    · exact ⟨hclean, hmove.symm, fun h => absurd (hmove.trans hnone) h⟩
  rw [if_pos hmove]
  obtain ⟨d, hr, hafter, hdata⟩ | ⟨hbad, junk, d, hr, hafter, hdata⟩ := v.disk.read_cases sect
  · rw [hr]
    have hshows : Shows { v with win := v.disk.data (sect + 0), winsect := sect, disk := d } sect :=
      ⟨hclean, rfl, fun _ => congrFun hdata sect⟩
    exact ⟨⟨hdata, hafter⟩, hclean, fun h => (by cases h), fun _ =>
      ⟨fun _ _ => hshows, fun _ => hshows⟩⟩
  · rw [hr]
    exact ⟨⟨hdata, hafter⟩, hclean, fun _ => ⟨rfl, hbad⟩, fun h => by cases h⟩

theorem checkFs_shows (v : Volume) (sect : Nat) :
    Looked v (checkFs v sect).2 ∧ ((checkFs v sect).1 = 3 → ¬v.disk.Reliable) ∧
      ((checkFs v sect).1 ≠ 3 → Shows (checkFs v sect).2 sect) := by
  have h := loadSector_cases { v with wflag := false, winsect := noSector } rfl sect
  unfold checkFs
  rcases hload : loadSector { v with wflag := false, winsect := noSector } sect with ⟨ok, v'⟩
  rw [hload] at h
  obtain ⟨hlook, -, hfailed, hok⟩ := h
  have hlook' : Looked v v' := ⟨hlook.data, hlook.after⟩
  cases ok with
  | false => exact ⟨hlook', fun _ => (hfailed rfl).2, fun h => absurd rfl h⟩
  | true =>
      have hshows := (hok rfl).2 rfl
      simp only
      split
      · exact ⟨hlook', fun h => (by cases h), fun _ => hshows⟩
      split
      · exact ⟨hlook', fun h => (by cases h), fun _ => hshows⟩
      split
      · exact ⟨hlook', fun h => (by cases h), fun _ => hshows⟩
      · exact ⟨hlook', fun h => (by cases h), fun _ => hshows⟩

theorem checkPartition_shows (v : Volume) (bsect : Nat) :
    Looked v (checkPartition v bsect).2 ∧
      ((checkPartition v bsect).1 = 3 → ¬v.disk.Reliable) ∧
      ((checkPartition v bsect).1 = 0 → Shows (checkPartition v bsect).2 bsect) := by
  unfold checkPartition
  split
  · obtain ⟨hlook, hbad, hshows⟩ := checkFs_shows v bsect
    exact ⟨hlook, hbad, fun h => hshows (by omega)⟩
  · exact ⟨.refl v, fun h => (by cases h), fun h => by cases h⟩

theorem probe_shows (br : List Nat) (v : Volume) (bsect : Nat) :
    Looked v (probe v bsect br).2.2 ∧ ((probe v bsect br).1 = 3 → ¬v.disk.Reliable) ∧
      ((probe v bsect br).1 = 0 → Shows (probe v bsect br).2.2 (probe v bsect br).2.1) := by
  induction br generalizing v bsect with
  | nil => exact checkPartition_shows v bsect
  | cons b br ih =>
      obtain ⟨hlook, hbad, hshows⟩ := checkPartition_shows v bsect
      unfold probe
      split
      · obtain ⟨hlook', hbad', hshows'⟩ := ih (checkPartition v bsect).2 b
        exact ⟨hlook.trans hlook', fun h => hlook.unreliable (hbad' h), hshows'⟩
      · exact ⟨hlook, hbad, hshows⟩

theorem locate_shows (v : Volume) :
    Looked v (locate v).2.2 ∧ ((locate v).1 = 3 → ¬v.disk.Reliable) ∧
      ((locate v).1 = 0 → Shows (locate v).2.2 (locate v).2.1) := by
  have h := checkFs_shows v 0
  unfold locate
  rcases hfs : checkFs v 0 with ⟨fmt, v₁⟩
  rw [hfs] at h
  obtain ⟨hlook, hbad, hshows⟩ := h
  split
  · next heq =>
      cases heq
      split
      · next b br _ =>
          obtain ⟨hlook', hbad', hshows'⟩ := probe_shows br v₁ b
          exact ⟨hlook.trans hlook', fun h => hlook.unreliable (hbad' h), hshows'⟩
      · exact ⟨hlook, fun h => (by cases h), fun h => by cases h⟩
  · next heq =>
      cases heq
      refine ⟨hlook, hbad, fun h => hshows ?_⟩
      have hzero : fmt = 0 := h
      show fmt ≠ 3
      omega

/-! ## The geometry -/

/-- The geometry is the one that was mounted. -/
structure Mount.Gives (m : Mount) (g : Geometry) : Prop where
  fsType : g.fsType = m.fsType
  nFats : g.nFats = m.nFats
  csize : g.csize = m.csize
  nFatent : g.nFatent = m.nFatent
  fsize : g.fsize = m.fsize
  volbase : g.volbase = m.volbase
  fatbase : g.fatbase = m.fatbase
  database : g.database = m.database

/-- No sum of the BPB passes a `DWORD`, and the clusters have numbers. -/
def Unwrapped (win : Sector) (bsect : Nat) : Prop :=
  ldWord win 14 + fatSz win * byteAt win 16 + ldWord win 17 / 16 < 2 ^ 32 ∧
    bsect + sysect win + nclst win * byteAt win 13 < 2 ^ 32 ∧ nclst win + 2 ≤ 0x0FFFFFFF

theorem power_of_mask : ∀ n < 256, n ≠ 0 → n &&& (n - 1) = 0 → ∃ k ≤ 7, n = 2 ^ k := by
  decide +kernel

theorem ldWord_lt (s : Sector) (i : Nat) : ldWord s i < 2 ^ 16 := by
  have h0 := byteAt_lt s i
  have h1 := byteAt_lt s (i + 1)
  rw [ldWord_eq]
  omega

theorem ldDword_lt (s : Sector) (i : Nat) : ldDword s i < 2 ^ 32 := by
  have h0 := byteAt_lt s i
  have h1 := byteAt_lt s (i + 1)
  have h2 := byteAt_lt s (i + 2)
  have h3 := byteAt_lt s (i + 3)
  rw [ldDword_eq]
  omega

theorem nclst_lt (win : Sector) : nclst win < 2 ^ 32 := by
  have htot : totSec win < 2 ^ 32 := by
    have := ldWord_lt win 19
    have := ldDword_lt win 32
    unfold totSec
    split <;> omega
  exact Nat.lt_of_le_of_lt (Nat.le_trans (Nat.div_le_self _ _) (Nat.sub_le _ _)) htot

theorem entries_of_subType {n : Nat} (h : n + 2 ≤ 0x0FFFFFFF) :
    n + 2 ≤ (subType n).maxEntries := by
  unfold subType
  split
  · exact h
  split
  · show n + 2 ≤ 65527
    omega
  · show n + 2 ≤ 4087
    omega

theorem maxEntries_le (t : FsType) : t.maxEntries ≤ 0x0FFFFFFF := by
  cases t <;> decide

/-- A table with few enough entries for its bytes not to wrap. -/
theorem tableBytes_lt {t : FsType} {n : Nat} (h : n ≤ 0x0FFFFFFF) :
    t.tableBytes n + 511 < 2 ^ 32 := by
  cases t
  · show n * 3 / 2 + n % 2 + 511 < 2 ^ 32
    omega
  · show n * 2 + 511 < 2 ^ 32
    omega
  · show n * 4 + 511 < 2 ^ 32
    omega

/-- The geometry of a volume that was accepted and does not wrap. -/
theorem exists_gives (ha : Accepted win bsect) (hu : Unwrapped win bsect) :
    ∃ g : Geometry, (Mount.ofBpb win bsect).Gives g := by
  obtain ⟨-, hfats, ⟨hsome, hmask⟩, -, hrsv, -, hclusters, -, hfits⟩ := ha
  obtain ⟨hsum, hend, hentries⟩ := hu
  have hsys : sysect win = ldWord win 14 + fatSz win * byteAt win 16 + ldWord win 17 / 16 := by
    unfold sysect
    omega
  have hbytes := tableBytes_lt (t := subType (nclst win)) hentries
  have hn : (nclst win + 2) % 2 ^ 32 = nclst win + 2 := by omega
  have hfat : (bsect + ldWord win 14) % 2 ^ 32 = bsect + ldWord win 14 := by omega
  have hdata : (bsect + sysect win) % 2 ^ 32 = bsect + sysect win := by omega
  have htable : (subType (nclst win)).tableBytes (nclst win + 2) ≤ fatSz win * 512 := by
    have hle : ((subType (nclst win)).tableBytes ((nclst win + 2) % 2 ^ 32) % 2 ^ 32 + 511) %
        2 ^ 32 / 512 ≤ fatSz win := hfits
    rw [hn] at hle
    omega
  refine ⟨{
    fsType := subType (nclst win)
    nFats := byteAt win 16
    csize := byteAt win 13
    nFatent := nclst win + 2
    fsize := fatSz win
    volbase := bsect
    fatbase := bsect + ldWord win 14
    database := bsect + sysect win
    oneOrTwo := hfats
    csizePow := power_of_mask _ (byteAt_lt win 13) hsome hmask
    someCluster := by omega
    entriesLe := entries_of_subType hentries
    tableFits := htable
    reserved := by omega
    tablesBelow := ?_
    dataBelow := ?_ }, rfl, rfl, rfl, hn.symm, rfl, rfl, hfat.symm, hdata.symm⟩
  · rw [Nat.mul_comm (byteAt win 16)]
    omega
  · rw [Nat.add_sub_cancel]
    exact hend

/-- A geometry leaves no room for a sum that wrapped. -/
theorem unwrapped_of_gives (hg : (Mount.ofBpb win bsect).Gives g) : Unwrapped win bsect := by
  have hrsv := ldWord_lt win 14
  have hroot := ldWord_lt win 17
  have hclusters := nclst_lt win
  have hn : g.nFatent = (nclst win + 2) % 2 ^ 32 := hg.nFatent
  have hvol : g.volbase = bsect := hg.volbase
  have hfat : g.fatbase = (bsect + ldWord win 14) % 2 ^ 32 := hg.fatbase
  have hdata : g.database = (bsect + sysect win) % 2 ^ 32 := hg.database
  have hsys : sysect win = (ldWord win 14 + fatSz win * byteAt win 16 % 2 ^ 32 +
      ldWord win 17 / 16) % 2 ^ 32 := rfl
  have hsome := g.someCluster
  have hmax := Nat.le_trans g.entriesLe (maxEntries_le g.fsType)
  have hcount : g.nFatent - 2 = nclst win := by omega
  have hreserved := g.reserved
  have htables : g.fatbase + fatSz win * byteAt win 16 ≤ g.database := by
    have h := g.tablesBelow
    rw [hg.nFats, hg.fsize, Nat.mul_comm] at h
    exact h
  have hbelow : g.database + nclst win * byteAt win 13 < 2 ^ 32 := by
    have h := g.dataBelow
    rw [hcount, hg.csize] at h
    exact h
  unfold Unwrapped
  omega

/-! ## The window -/

theorem loadHints_shows (m : Mount) (h : Shows v m.volbase) :
    Looked v (loadHints m v) ∧ ((loadHints m v).winsect = noSector ∧
        (loadHints m v).wflag = false ∨ Shows (loadHints m v) m.volbase ∨
      Shows (loadHints m v) ((m.volbase + 1) % 2 ^ 32)) := by
  unfold loadHints
  split
  rotate_left
  · exact ⟨⟨rfl, Drive.After.refl _⟩, Or.inr (Or.inl ⟨h.clean, h.winsect, h.shows⟩)⟩
  generalize hv₁ : ({ v with lastClust := 0xFFFFFFFF, freeClust := 0xFFFFFFFF, fsiFlag := 0x80 } :
    Volume) = v₁
  have hlook₁ : Looked v v₁ := by
    rw [← hv₁]
    exact ⟨rfl, Drive.After.refl _⟩
  have hshows₁ : Shows v₁ m.volbase := by
    rw [← hv₁]
    exact ⟨h.clean, h.winsect, h.shows⟩
  have hload := loadSector_cases v₁ hshows₁.clean ((m.volbase + 1) % 2 ^ 32)
  generalize loadSector v₁ ((m.volbase + 1) % 2 ^ 32) = out at hload
  obtain ⟨ok, v₂⟩ := out
  obtain ⟨hlook, hclean, hlost, hok⟩ := hload
  have hlook₂ : Looked v v₂ := hlook₁.trans hlook
  cases ok with
  | false => exact ⟨hlook₂, Or.inl ⟨(hlost rfl).1, hclean⟩⟩
  | true =>
      have hshows : Shows v₂ ((m.volbase + 1) % 2 ^ 32) := (hok rfl).1 _ hshows₁
      simp only
      split
      · exact ⟨⟨hlook₂.data, hlook₂.after⟩,
          Or.inr (Or.inr ⟨hshows.clean, hshows.winsect, hshows.shows⟩)⟩
      · exact ⟨⟨hlook₂.data, hlook₂.after⟩,
          Or.inr (Or.inr ⟨hshows.clean, hshows.winsect, hshows.shows⟩)⟩

/-- The sectors that mounting leaves in the window. -/
theorem coherent_of_shows (h : Shows v b) (hb : b = g.volbase ∨ b = g.volbase + 1) :
    g.Coherent v := by
  have hreserved := g.reserved
  have htables := g.tables_lt
  have hplaced : g.parked b ∨ g.home b := by
    obtain rfl | rfl := hb
    · refine Or.inr ⟨?_, fun hm => by omega, fun hi => ?_⟩
      · show g.volbase < 0xFFFFFFFF
        omega
      · have := hi.1
        omega
    · by_cases hlast : g.volbase + 1 < g.fatbase
      · exact Or.inl (Or.inr ⟨rfl, hlast⟩)
      · have hsize : 0 < g.fsize := by
          have hfits := g.tableFits
          have hsome := g.someCluster
          have hbytes : 0 < g.fsType.tableBytes g.nFatent := by
            cases g.fsType
            · show 0 < g.nFatent * 3 / 2 + g.nFatent % 2
              omega
            · show 0 < g.nFatent * 2
              omega
            · show 0 < g.nFatent * 4
              omega
          omega
        exact Or.inr (g.home_of_inTable ⟨by omega, by omega⟩)
  refine ⟨?_, fun _ hp => ?_, fun _ => h.clean⟩
  · rw [h.winsect]
    exact hplaced
  · rw [h.winsect] at hp ⊢
    exact h.shows fun he => hp (he ▸ g.parked_noSector)

/-- A mount that is accepted. -/
theorem findVolume_accepts (h : findVolume v = (.ok m, v')) :
    (∃ win, Accepted win m.volbase ∧ m = .ofBpb win m.volbase ∧
      (m.volbase ≠ noSector → win = v.disk.data m.volbase)) ∧
    Looked v v' ∧ ∀ g : Geometry, m.Gives g → g.Coherent v' := by
  obtain ⟨hlook, -, hshows⟩ := locate_shows v
  unfold findVolume at h
  rcases hloc : locate v with ⟨fmt, bsect, v₁⟩
  rw [hloc] at h hlook hshows
  simp only at h
  split at h
  · cases h
  split at h
  · cases h
  next hfmt =>
  rw [not_not] at hfmt
  split at h
  rotate_left
  · cases h
  next haccepted =>
  cases h
  have hshow : Shows v₁ (Mount.ofBpb v₁.win bsect).volbase := hshows hfmt
  obtain ⟨hlook', hwindow⟩ := loadHints_shows _ hshow
  refine ⟨⟨v₁.win, haccepted, rfl, fun hsome => ?_⟩, hlook.trans hlook', fun g hg => ?_⟩
  · rw [← hlook.data]
    exact (hshow.shows hsome).symm
  · obtain ⟨hnone, hclean⟩ | hwin | hwin := hwindow
    · refine ⟨Or.inl (hnone ▸ g.parked_noSector), fun _ hp => ?_, fun _ => hclean⟩
      exact absurd (hnone ▸ g.parked_noSector) hp
    · exact coherent_of_shows hwin (Or.inl hg.volbase.symm)
    · have hlt : g.volbase + 1 < 2 ^ 32 := by
        have := g.reserved
        have := g.tables_lt
        omega
      rw [← hg.volbase, Nat.mod_eq_of_lt hlt] at hwin
      exact coherent_of_shows hwin (Or.inr rfl)

/-- A mount that is refused. -/
theorem findVolume_refuses {e : FResult} (h : findVolume v = (.error e, v')) :
    Looked v v' ∧ (e = .noFilesystem ∨ (e = .diskErr ∧ ¬v.disk.Reliable)) := by
  obtain ⟨hlook, hbad, -⟩ := locate_shows v
  unfold findVolume at h
  rcases hloc : locate v with ⟨fmt, bsect, v₁⟩
  rw [hloc] at h hlook hbad
  simp only at h
  split at h
  · next hfmt =>
      cases h
      exact ⟨hlook, Or.inr ⟨rfl, hbad hfmt⟩⟩
  split at h
  · cases h
    exact ⟨hlook, Or.inl rfl⟩
  split at h
  · cases h
  · cases h
    exact ⟨hlook, Or.inl rfl⟩

/-- The marks of a FAT boot sector. -/
def FatBoot (win : Sector) : Prop :=
  ldWord win 510 = 0xAA55 ∧
    (ldDword win 54 &&& 0xFFFFFF = 0x544146 ∨ ldDword win 82 &&& 0xFFFFFF = 0x544146)

theorem loadSector_reliable (hr : v.disk.Reliable) {sect : Nat} (hmove : sect ≠ v.winsect) :
    (loadSector v sect).1 = true ∧ (loadSector v sect).2.win = v.disk.data sect := by
  unfold loadSector
  rw [if_pos hmove]
  obtain ⟨d, hread, -, -⟩ | ⟨hbad, -⟩ := v.disk.read_cases sect
  · rw [hread]
    exact ⟨rfl, rfl⟩
  · exact absurd hr hbad

theorem checkFs_fatBoot (hr : v.disk.Reliable) {sect : Nat} (hsect : sect ≠ noSector)
    (hfat : FatBoot (v.disk.data sect)) :
    (checkFs v sect).1 = 0 ∧ (checkFs v sect).2.win = v.disk.data sect := by
  have h := loadSector_reliable (v := { v with wflag := false, winsect := noSector }) hr hsect
  unfold checkFs
  rcases hload : loadSector { v with wflag := false, winsect := noSector } sect with ⟨ok, v'⟩
  rw [hload] at h
  obtain ⟨rfl, hwin⟩ := h
  have hwin' : v'.win = v.disk.data sect := hwin
  rw [← hwin'] at hfat
  simp only
  rw [if_neg (not_not_intro hfat.1)]
  obtain hmark | hmark := hfat.2
  · rw [if_pos hmark]
    exact ⟨rfl, hwin'⟩
  · by_cases hmark' : ldDword v'.win 54 &&& 0xFFFFFF = 0x544146
    · rw [if_pos hmark']
      exact ⟨rfl, hwin'⟩
    · rw [if_neg hmark', if_pos hmark]
      exact ⟨rfl, hwin'⟩

/-- A drive with a boot sector in its first sector that passes the checks is mounted. -/
theorem findVolume_boots (hr : v.disk.Reliable) (hfat : FatBoot (v.disk.data 0))
    (ha : Accepted (v.disk.data 0) 0) :
    (findVolume v).1 = .ok (.ofBpb (v.disk.data 0) 0) := by
  obtain ⟨hfmt, hwin⟩ := checkFs_fatBoot hr (show 0 ≠ noSector by decide) hfat
  unfold findVolume locate
  rcases hfs : checkFs v 0 with ⟨fmt, v'⟩
  rw [hfs] at hfmt hwin
  have hzero : fmt = 0 := hfmt
  have hwin' : v'.win = v.disk.data 0 := hwin
  rw [← hwin'] at ha ⊢
  subst hzero
  simp only
  rw [if_neg (by decide), if_neg (by decide), if_pos ha]

/-- The boot sector of `floppy`. -/
def bootByte : Nat → UInt8
  | 12 => 2
  | 13 => 1
  | 14 => 1
  | 16 => 2
  | 17 => 16
  | 19 => 12
  | 22 => 1
  | 54 => 0x46
  | 55 => 0x41
  | 56 => 0x54
  | 510 => 0x55
  | 511 => 0xAA
  | _ => 0

def bootDrive : Drive Sector where
  data s i := if s = 0 then bootByte i.val else 0
  faults _ := none
  transfers := 0

theorem bootDrive_gives : (Mount.ofBpb (bootDrive.data 0) 0).Gives floppy := by
  constructor <;> decide

end Fat
end ImuFirmware
