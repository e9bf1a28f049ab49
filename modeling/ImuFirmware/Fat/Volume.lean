/-
The file system object of `ff.c` and its accesses to the file allocation table.

A FATFS is split in two.  What mounting fixes is the `Geometry`, with the checks that
`find_volume` makes as fields, so a `DWORD` sum of its parts never wraps.  What changes
afterwards is the `Volume`: the sector window, the allocation hints, and the drive below
`diskio.c`, any transfer of which may fail.
-/
import ImuFirmware.Storage.Window
import Mathlib.Algebra.Ring.Nat

namespace ImuFirmware
namespace Fat

open Storage

/-- `_MAX_SS` is 512. -/
abbrev Sector := Fin 512 → UInt8

/-- The `FRESULT`s that occur here. -/
inductive FResult where
  | ok
  | diskErr
  | intErr
  | denied
  | invalidObject
  | noFilesystem
  | locked
  | tooManyOpenFiles
  deriving DecidableEq, Repr

inductive FsType where
  | fat12
  | fat16
  | fat32
  deriving DecidableEq, Repr

namespace FsType

/-- The largest table `find_volume` gives the type, and for FAT32 the largest whose
cluster numbers stay below the last-link mark. -/
def maxEntries : FsType → Nat
  | .fat12 => 4087
  | .fat16 => 65527
  | .fat32 => 0x0FFFFFFF

/-- `szbfat`, the bytes a table takes. -/
def tableBytes : FsType → Nat → Nat
  | .fat12, n => n * 3 / 2 + n % 2
  | .fat16, n => n * 2
  | .fat32, n => n * 4

end FsType

/-- What mounting fixes. -/
structure Geometry where
  fsType : FsType
  nFats : Nat
  csize : Nat
  nFatent : Nat
  fsize : Nat
  volbase : Nat
  fatbase : Nat
  database : Nat
  oneOrTwo : nFats = 1 ∨ nFats = 2
  csizePow : ∃ k, k ≤ 7 ∧ csize = 2 ^ k
  someCluster : 3 ≤ nFatent
  entriesLe : nFatent ≤ fsType.maxEntries
  tableFits : fsType.tableBytes nFatent ≤ fsize * 512
  reserved : volbase < fatbase
  tablesBelow : fatbase + nFats * fsize ≤ database
  dataBelow : database + (nFatent - 2) * csize < 2 ^ 32

/-- The fields of a FATFS that change while it is mounted. -/
structure Volume extends Window Sector where
  fsiFlag : UInt8
  lastClust : Nat
  freeClust : Nat

/-- What `create_chain` and `remove_chain` note about the free clusters. -/
def Volume.hints (v : Volume) : UInt8 × Nat × Nat := (v.fsiFlag, v.lastClust, v.freeClust)

/-- Subtraction of `DWORD`s. -/
def dwordSub (a b : Nat) : Nat := (a + 2 ^ 32 - b) % 2 ^ 32

/-- `winsect` while the window holds no sector. -/
def noSector : Nat := 0xFFFFFFFF

/-- A volume with nothing in its window and no hints. -/
def mounted (d : Drive Sector) : Volume :=
  { win := fun _ => 0
    winsect := noSector
    wflag := false
    disk := d
    fsiFlag := 0x80
    lastClust := 0xFFFFFFFF
    freeClust := 0xFFFFFFFF }

/-- A volume of eight clusters, a sector each. -/
def floppy : Geometry where
  fsType := .fat12
  nFats := 2
  csize := 1
  nFatent := 10
  fsize := 1
  volbase := 0
  fatbase := 1
  database := 4
  oneOrTwo := Or.inr rfl
  csizePow := ⟨0, by decide, rfl⟩
  someCluster := by decide
  entriesLe := by decide
  tableFits := by decide
  reserved := by decide
  tablesBelow := by decide
  dataBelow := by decide

/-- A FAT12 volume whose table takes two sectors. -/
def wide : Geometry where
  fsType := .fat12
  nFats := 1
  csize := 1
  nFatent := 400
  fsize := 2
  volbase := 0
  fatbase := 1
  database := 4
  oneOrTwo := Or.inl rfl
  csizePow := ⟨0, by decide, rfl⟩
  someCluster := by decide
  entriesLe := by decide
  tableFits := by decide
  reserved := by decide
  tablesBelow := by decide
  dataBelow := by decide

/-- A FAT16 volume in a partition, with one table and clusters of four sectors. -/
def stick : Geometry where
  fsType := .fat16
  nFats := 1
  csize := 4
  nFatent := 5002
  fsize := 20
  volbase := 63
  fatbase := 64
  database := 116
  oneOrTwo := Or.inl rfl
  csizePow := ⟨2, by decide, rfl⟩
  someCluster := by decide
  entriesLe := by decide
  tableFits := by decide
  reserved := by decide
  tablesBelow := by decide
  dataBelow := by decide

/-- A FAT32 volume with clusters of eight sectors. -/
def card : Geometry where
  fsType := .fat32
  nFats := 2
  csize := 8
  nFatent := 70002
  fsize := 547
  volbase := 0
  fatbase := 32
  database := 1126
  oneOrTwo := Or.inr rfl
  csizePow := ⟨3, by decide, rfl⟩
  someCluster := by decide
  entriesLe := by decide
  tableFits := by decide
  reserved := by decide
  tablesBelow := by decide
  dataBelow := by decide

/-- A drive of zeros that does not fail. -/
def blank : Drive Sector := ⟨fun _ _ => 0, fun _ => none, 0⟩

theorem blank_reliable : blank.Reliable := fun _ _ => rfl

/-- A drive of zeros whose transfer `n` fails. -/
def faulty (n : Nat) : Drive Sector :=
  ⟨fun _ _ => 0, fun k => if k = n then some fun _ _ => 0xFF else none, 0⟩

/-! ## The window -/

/-- The loop of `sync_window` over the other copies of the table. -/
def copyFats (g : Geometry) (win : Sector) : Nat → Nat → Drive Sector → Drive Sector
  | 0, _, d => d
  | n + 1, wsect, d =>
      copyFats g win n (wsect + g.fsize) (d.write (fun _ => win) (wsect + g.fsize) 1).2

def syncWindow (g : Geometry) (v : Volume) : FResult × Volume :=
  if v.wflag then
    match v.disk.write (fun _ => v.win) v.winsect 1 with
    | (false, d) => (.diskErr, { v with disk := d })
    | (true, d) =>
        if dwordSub v.winsect g.fatbase < g.fsize then
          (.ok, { v with wflag := false, disk := copyFats g v.win (g.nFats - 1) v.winsect d })
        else (.ok, { v with wflag := false, disk := d })
  else (.ok, v)

def moveWindow (g : Geometry) (v : Volume) (sector : Nat) : FResult × Volume :=
  if sector ≠ v.winsect then
    match syncWindow g v with
    | (.ok, v) =>
        match v.disk.read sector with
        | (true, buf, d) => (.ok, { v with win := buf 0, winsect := sector, disk := d })
        | (false, buf, d) => (.diskErr, { v with win := buf 0, winsect := noSector, disk := d })
    | (res, v) => (res, v)
  else (.ok, v)

/-- Writes into the window. -/
def Volume.change (v : Volume) (f : Sector → Sector) : Volume :=
  { v with toWindow := v.toWindow.edit f }

/-! ## Words in a sector -/

def byteIn (s : Sector) (i : Nat) : UInt8 := s (Fin.ofNat 512 i)

def byteAt (s : Sector) (i : Nat) : Nat := (byteIn s i).toNat

def setByte (i x : Nat) (s : Sector) : Sector :=
  Function.update s (Fin.ofNat 512 i) (UInt8.ofNat x)

/-- `LD_WORD`. -/
def ldWord (s : Sector) (i : Nat) : Nat := byteAt s (i + 1) <<< 8 ||| byteAt s i

/-- `LD_DWORD`. -/
def ldDword (s : Sector) (i : Nat) : Nat :=
  byteAt s (i + 3) <<< 24 ||| byteAt s (i + 2) <<< 16 ||| byteAt s (i + 1) <<< 8 ||| byteAt s i

/-- `ST_WORD`. -/
def stWord (i val : Nat) (s : Sector) : Sector := setByte (i + 1) (val >>> 8) (setByte i val s)

/-- `ST_DWORD`. -/
def stDword (i val : Nat) (s : Sector) : Sector :=
  setByte (i + 3) (val >>> 24) (setByte (i + 2) (val >>> 16) (stWord i val s))

/-! ## Clusters and their entries -/

/-- The first sector of a cluster, 0 for a number that is none. -/
def clust2sect (g : Geometry) (clst : Nat) : Nat :=
  if dwordSub clst 2 ≥ g.nFatent - 2 then 0 else dwordSub clst 2 * g.csize + g.database

/-- What `get_fat` and others return for a disk error. -/
def diskError : Nat := 0xFFFFFFFF

/-- The entry of a cluster, 1 if there is none. -/
def getFat (g : Geometry) (v : Volume) (clst : Nat) : Nat × Volume :=
  if clst < 2 ∨ g.nFatent ≤ clst then (1, v)
  else
    match g.fsType with
    | .fat12 =>
        let bc := clst + clst / 2
        match moveWindow g v (g.fatbase + bc / 512) with
        | (.ok, v) =>
            let lo := byteAt v.win bc
            match moveWindow g v (g.fatbase + (bc + 1) / 512) with
            | (.ok, v) =>
                let wc := lo ||| byteAt v.win (bc + 1) <<< 8
                (if clst &&& 1 ≠ 0 then wc >>> 4 else wc &&& 0xFFF, v)
            | (_, v) => (diskError, v)
        | (_, v) => (diskError, v)
    | .fat16 =>
        match moveWindow g v (g.fatbase + clst / (512 / 2)) with
        | (.ok, v) => (ldWord v.win (clst * 2 % 512), v)
        | (_, v) => (diskError, v)
    | .fat32 =>
        match moveWindow g v (g.fatbase + clst / (512 / 4)) with
        | (.ok, v) => (ldDword v.win (clst * 4 % 512) &&& 0x0FFFFFFF, v)
        | (_, v) => (diskError, v)

def putFat (g : Geometry) (v : Volume) (clst val : Nat) : FResult × Volume :=
  if clst < 2 ∨ g.nFatent ≤ clst then (.intErr, v)
  else
    match g.fsType with
    | .fat12 =>
        let bc := clst + clst / 2
        match moveWindow g v (g.fatbase + bc / 512) with
        | (.ok, v) =>
            let p := byteAt v.win bc
            let v := v.change (setByte bc
              (if clst &&& 1 ≠ 0 then (p &&& 0x0F) ||| (val % 256) <<< 4 else val))
            match moveWindow g v (g.fatbase + (bc + 1) / 512) with
            | (.ok, v) =>
                let p := byteAt v.win (bc + 1)
                (.ok, v.change (setByte (bc + 1)
                  (if clst &&& 1 ≠ 0 then val >>> 4
                    else (p &&& 0xF0) ||| ((val >>> 8) % 256 &&& 0x0F))))
            | (res, v) => (res, v)
        | (res, v) => (res, v)
    | .fat16 =>
        match moveWindow g v (g.fatbase + clst / (512 / 2)) with
        | (.ok, v) => (.ok, v.change (stWord (clst * 2 % 512) (val % 2 ^ 16)))
        | (res, v) => (res, v)
    | .fat32 =>
        match moveWindow g v (g.fatbase + clst / (512 / 4)) with
        | (.ok, v) =>
            let kept := ldDword v.win (clst * 4 % 512) &&& 0xF0000000
            (.ok, v.change (stDword (clst * 4 % 512) (val ||| kept)))
        | (res, v) => (res, v)

end Fat
end ImuFirmware
