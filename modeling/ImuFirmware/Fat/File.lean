/-
An open file of `ff.c` and `f_write`.

A FIL has a buffer of one sector.  `f_write` copies what is less than a sector into it and
sends whole sectors past it to the drive, cluster by cluster, following the chain or
stretching it.  The clusters of a file, its sectors, and what it holds come with it.
-/
import ImuFirmware.Fat.Owners
import Mathlib.Data.List.GetD

namespace ImuFirmware
namespace Fat

open Storage

/-- A FIL.  `attached` is what `validate` looks at, `changed` is `FA__WRITTEN` and `dirty`
is `FA__DIRTY`. -/
structure File where
  attached : Bool
  canRead : Bool
  canWrite : Bool
  changed : Bool
  dirty : Bool
  err : FResult
  fptr : Nat
  fsize : Nat
  sclust : Nat
  clust : Nat
  dsect : Nat
  dirSect : Nat
  dirPtr : Nat
  lockid : Nat
  buf : Sector

/-- How a part of a transfer ends: it goes on, the volume is full, or `ABORT`. -/
inductive Flow where
  | go
  | full
  | abort (res : FResult)
  deriving DecidableEq, Repr

/-- Sector `n` of the bytes to be written. -/
def sectorsOf (wbuff : List UInt8) (n : Nat) : Sector := fun i => wbuff.getD (n * 512 + i) 0

/-- `csect`. -/
def File.csect (g : Geometry) (f : File) : Nat := (f.fptr / 512 &&& (g.csize - 1)) % 256

/-! ## `f_write` -/

/-- The cluster at the pointer, which is at the start of one. -/
def nextCluster (g : Geometry) (v : Volume) (f : File) : Nat × Volume :=
  if f.fptr = 0 then if f.sclust = 0 then createChain g v 0 else (f.sclust, v)
  else createChain g v f.clust

def enterCluster (g : Geometry) (v : Volume) (f : File) : Flow × Volume × File :=
  if f.csect g = 0 then
    match nextCluster g v f with
    | (clst, v) =>
        if clst = 0 then (.full, v, f)
        else if clst = 1 then (.abort .intErr, v, f)
        else if clst = diskError then (.abort .diskErr, v, f)
        else (.go, v, { f with clust := clst, sclust := if f.sclust = 0 then clst else f.sclust })
  else (.go, v, f)

/-- The write-back of the buffer. -/
def writeBack (v : Volume) (f : File) : Flow × Volume × File :=
  if f.dirty then
    match v.disk.write (fun _ => f.buf) f.dsect 1 with
    | (true, d) => (.go, { v with disk := d }, { f with dirty := false })
    | (false, d) => (.abort .diskErr, { v with disk := d }, f)
  else (.go, v, f)

/-- `cc` sectors past the buffer, which is refilled if it lies among them. -/
def writeSectors (v : Volume) (f : File) (wbuff : List UInt8) (sect cc : Nat) :
    Flow × Volume × File :=
  match v.disk.write (sectorsOf wbuff) sect cc with
  | (true, d) =>
      if dwordSub f.dsect sect < cc then
        (.go, { v with disk := d },
          { f with buf := sectorsOf wbuff (dwordSub f.dsect sect), dirty := false })
      else (.go, { v with disk := d }, f)
  | (false, d) => (.abort .diskErr, { v with disk := d }, f)

/-- The buffer moves to a sector, which is only read if the file has bytes in it. -/
def fillBuffer (v : Volume) (f : File) (sect : Nat) : Flow × Volume × File :=
  if f.dsect ≠ sect ∧ f.fptr < f.fsize then
    match v.disk.read sect with
    | (true, buf, d) => (.go, { v with disk := d }, { f with buf := buf 0, dsect := sect })
    | (false, buf, d) => (.abort .diskErr, { v with disk := d }, { f with buf := buf 0 })
  else (.go, v, { f with dsect := sect })

/-- `mem_cpy` of `wcnt` bytes into the buffer. -/
def copyIn (f : File) (wbuff : List UInt8) (wcnt : Nat) : File :=
  { f with
    buf := fun i =>
      if f.fptr % 512 ≤ i ∧ i < f.fptr % 512 + wcnt then wbuff.getD (i - f.fptr % 512) 0
      else f.buf i
    dirty := true }

/-- The part of a round for less than a sector, with the number of bytes it takes. -/
def writePart (v : Volume) (f : File) (wbuff : List UInt8) : Flow × Nat × Volume × File :=
  (.go, min (512 - f.fptr % 512) wbuff.length, v,
    copyIn f wbuff (min (512 - f.fptr % 512) wbuff.length))

/-- How many sectors go past the buffer: up to the end of the cluster. -/
def wholeSectors (g : Geometry) (f : File) (wbuff : List UInt8) : Nat :=
  if g.csize < f.csect g + wbuff.length / 512 then g.csize - f.csect g else wbuff.length / 512

/-- What follows where a part of a transfer went on; else nothing was transferred. -/
def Flow.andThen {α : Type} (nothing : α) (out : Flow × Volume × File)
    (next : Volume → File → Flow × α × Volume × File) : Flow × α × Volume × File :=
  match out with
  | (.go, v, f) => next v f
  | (flow, v, f) => (flow, nothing, v, f)

/-- The start of a sector, after the buffer was written back. -/
def writeSector (g : Geometry) (v : Volume) (f : File) (wbuff : List UInt8) :
    Flow × Nat × Volume × File :=
  if clust2sect g f.clust = 0 then (.abort .intErr, 0, v, f)
  else if wbuff.length / 512 ≠ 0 then
    match writeSectors v f wbuff (clust2sect g f.clust + f.csect g) (wholeSectors g f wbuff) with
    | (flow, v, f') => (flow, 512 * wholeSectors g f wbuff, v, f')
  else
    Flow.andThen 0 (fillBuffer v f (clust2sect g f.clust + f.csect g)) fun v f =>
      writePart v f wbuff

/-- One round of the loop, with `wcnt`. -/
def writeRound (g : Geometry) (v : Volume) (f : File) (wbuff : List UInt8) :
    Flow × Nat × Volume × File :=
  if f.fptr % 512 = 0 then
    Flow.andThen 0 (enterCluster g v f) fun v f =>
      Flow.andThen 0 (writeBack v f) fun v f => writeSector g v f wbuff
  else writePart v f wbuff

def File.advance (f : File) (n : Nat) : File := { f with fptr := f.fptr + n }

theorem csect_lt (g : Geometry) (f : File) : f.csect g < g.csize := by
  obtain ⟨k, -, hk⟩ := g.csizePow
  have hpos : 0 < g.csize := by rw [hk]; exact Nat.two_pow_pos k
  have hand := Nat.and_le_right (n := f.fptr / 512) (m := g.csize - 1)
  have hmod := Nat.mod_le (f.fptr / 512 &&& (g.csize - 1)) 256
  unfold File.csect
  omega

theorem wholeSectors_pos {g : Geometry} {f : File} {wbuff : List UInt8}
    (h : wbuff.length / 512 ≠ 0) : 0 < wholeSectors g f wbuff := by
  have := csect_lt g f
  unfold wholeSectors
  split <;> omega

theorem Flow.andThen_eq_go {α : Type} {nothing n : α} {out : Flow × Volume × File}
    {next : Volume → File → Flow × α × Volume × File} {v : Volume} {f : File}
    (h : Flow.andThen nothing out next = (.go, n, v, f)) :
    ∃ v' f', out = (.go, v', f') ∧ next v' f' = (.go, n, v, f) := by
  obtain ⟨flow, v', f'⟩ := out
  cases flow with
  | go => exact ⟨v', f', rfl, h⟩
  | full => cases h
  | abort res => cases h

theorem writePart_pos (v : Volume) (f : File) {wbuff : List UInt8} (hmore : wbuff ≠ []) :
    0 < (writePart v f wbuff).2.1 := by
  have hlen := List.length_pos_iff.mpr hmore
  show 0 < min (512 - f.fptr % 512) wbuff.length
  omega

theorem writeRound_pos {g : Geometry} {v v' : Volume} {f f' : File} {wbuff : List UInt8}
    {wcnt : Nat} (hmore : wbuff ≠ []) (h : writeRound g v f wbuff = (.go, wcnt, v', f')) :
    0 < wcnt := by
  have hpart : ∀ (v : Volume) (f : File), writePart v f wbuff = (.go, wcnt, v', f') →
      0 < wcnt := by
    intro v f heq
    have hpos := writePart_pos v f hmore
    rw [heq] at hpos
    exact hpos
  unfold writeRound at h
  split at h
  · obtain ⟨v₁, f₁, -, h⟩ := Flow.andThen_eq_go h
    obtain ⟨v₂, f₂, -, h⟩ := Flow.andThen_eq_go h
    unfold writeSector at h
    split at h
    · cases h
    split at h
    · next hwhole =>
      have hpos := wholeSectors_pos (g := g) (f := f₂) hwhole
      have hcount := congrArg (fun out => out.2.1) h
      have hn : 512 * wholeSectors g f₂ wbuff = wcnt := hcount
      omega
    · obtain ⟨v₃, f₃, -, h⟩ := Flow.andThen_eq_go h
      exact hpart v₃ f₃ h
  · exact hpart v f h

/-- The loop, with the number of bytes it wrote. -/
def writeLoop (g : Geometry) (v : Volume) (f : File) (wbuff : List UInt8) :
    Flow × Nat × Volume × File :=
  if _hmore : wbuff = [] then (.go, 0, v, f)
  else
    match _hround : writeRound g v f wbuff with
    | (.go, wcnt, v, f) =>
        let out := writeLoop g v (f.advance wcnt) (wbuff.drop wcnt)
        (out.1, wcnt + out.2.1, out.2.2)
    | (flow, _, v, f) => (flow, 0, v, f)
  termination_by wbuff.length
  decreasing_by
    have hpos := writeRound_pos _hmore _hround
    have hlen := List.length_pos_iff.mpr _hmore
    rw [List.length_drop]
    omega

/-- `f_write`: the result, `*bw`, and the objects afterwards. -/
def fWrite (g : Geometry) (v : Volume) (f : File) (buff : List UInt8) :
    FResult × Nat × Volume × File :=
  if f.attached = false then (.invalidObject, 0, v, f)
  else if f.err ≠ .ok then (f.err, 0, v, f)
  else if f.canWrite = false then (.denied, 0, v, f)
  else
    -- the pointer is a `DWORD`, and a write that would wrap it is none
    match writeLoop g v f (if (f.fptr + buff.length) % 2 ^ 32 < f.fptr then [] else buff) with
    | (.abort res, bw, v, f) => (res, bw, v, { f with err := res })
    | (_, bw, v, f) => (.ok, bw, v, { f with fsize := max f.fsize f.fptr, changed := true })

/-! ## The sectors of a file -/

namespace Geometry

variable (g : Geometry)

def InCluster (c s : Nat) : Prop := clust2sect g c ≤ s ∧ s < clust2sect g c + g.csize

/-- Sector `k` of the file with that chain. -/
def sectorNo (chain : List Nat) (k : Nat) : Nat :=
  clust2sect g (chain.getD (k / g.csize) 0) + k % g.csize

def Owns (chain : List Nat) (s : Nat) : Prop := ∃ c ∈ chain, g.InCluster c s

theorem csize_pos : 0 < g.csize := by
  obtain ⟨k, -, hk⟩ := g.csizePow
  rw [hk]
  exact Nat.two_pow_pos k

variable {g} {c d s k : Nat} {chain l : List Nat}

theorem clust2sect_of_cluster (h : g.IsCluster c) :
    clust2sect g c = (c - 2) * g.csize + g.database := by
  have hlow := h.1
  have hhigh := h.2
  have hmod := IsCluster.mod h
  have hle := g.entriesLe
  have hmax : g.fsType.maxEntries < 2 ^ 28 := by cases g.fsType <;> decide
  have hsub : dwordSub c 2 = c - 2 := by
    unfold dwordSub
    omega
  rw [clust2sect, hsub, if_neg (by omega)]

theorem InCluster.bounds (hc : g.IsCluster c) (h : g.InCluster c s) :
    g.database ≤ s ∧ s < g.database + (g.nFatent - 2) * g.csize := by
  have hsect := clust2sect_of_cluster hc
  have hup : (c - 2 + 1) * g.csize ≤ (g.nFatent - 2) * g.csize :=
    Nat.mul_le_mul_right _ (by have := hc.1; have := hc.2; omega)
  rw [Nat.add_mul, Nat.one_mul] at hup
  have hlow := h.1
  have hhigh := h.2
  rw [hsect] at hlow hhigh
  omega

/-- The data of a cluster lies behind the tables. -/
theorem InCluster.offTable (hc : g.IsCluster c) (h : g.InCluster c s) :
    g.home s ∧ ¬g.InTable s ∧ s ≠ 0 ∧ s < 2 ^ 32 := by
  obtain ⟨hlow, hhigh⟩ := h.bounds hc
  have hdata := g.dataBelow
  have htables := g.tablesBelow
  have hreserved := g.reserved
  have hle : g.fsize ≤ g.nFats * g.fsize := by
    obtain h | h := g.oneOrTwo <;> rw [h] <;> omega
  refine ⟨⟨?_, fun hm => by omega, fun hi => ?_⟩, fun ht => ?_, by omega, by omega⟩
  · show s < 0xFFFFFFFF
    omega
  · have := hi.2
    omega
  · have := ht.2
    omega

theorem InCluster.unique (hc : g.IsCluster c) (hd : g.IsCluster d) (h : g.InCluster c s)
    (h' : g.InCluster d s) : c = d := by
  have hsame : ∀ {a}, g.IsCluster a → g.InCluster a s → (s - g.database) / g.csize = a - 2 := by
    intro a ha hs
    have hlow := hs.1
    have hhigh := hs.2
    rw [clust2sect_of_cluster ha] at hlow hhigh
    refine Nat.div_eq_of_lt_le ?_ ?_
    · omega
    · rw [Nat.add_mul, Nat.one_mul]
      omega
  have hc' := hsame hc h
  have hd' := hsame hd h'
  have := hc.1
  have := hd.1
  omega

theorem sectorNo_append (h : k < chain.length * g.csize) :
    g.sectorNo (chain ++ l) k = g.sectorNo chain k := by
  have hk : k / g.csize < chain.length := Nat.div_lt_of_lt_mul (Nat.mul_comm .. ▸ h)
  rw [sectorNo, sectorNo, List.getD_append _ _ _ _ hk]

theorem owns_sectorNo (h : k < chain.length * g.csize) : g.Owns chain (g.sectorNo chain k) := by
  have hk : k / g.csize < chain.length := Nat.div_lt_of_lt_mul (Nat.mul_comm .. ▸ h)
  have hmod := Nat.mod_lt k g.csize_pos
  refine ⟨chain[k / g.csize], List.getElem_mem hk, ?_⟩
  rw [sectorNo, List.getD_eq_getElem _ _ hk]
  exact ⟨Nat.le_add_right .., by omega⟩

theorem Owns.append (h : g.Owns chain s) : g.Owns (chain ++ l) s := by
  obtain ⟨c, hc, hs⟩ := h
  exact ⟨c, List.mem_append_left l hc, hs⟩

/-- Different sectors of a file lie in different sectors of the volume. -/
theorem sectorNo_inj {j : Nat} (hnodup : chain.Nodup) (hcl : ∀ c ∈ chain, g.IsCluster c)
    (hj : j < chain.length * g.csize) (hk : k < chain.length * g.csize)
    (h : g.sectorNo chain j = g.sectorNo chain k) : j = k := by
  have hj' : j / g.csize < chain.length := Nat.div_lt_of_lt_mul (Nat.mul_comm .. ▸ hj)
  have hk' : k / g.csize < chain.length := Nat.div_lt_of_lt_mul (Nat.mul_comm .. ▸ hk)
  have hjm := Nat.mod_lt j g.csize_pos
  have hkm := Nat.mod_lt k g.csize_pos
  rw [sectorNo, sectorNo, List.getD_eq_getElem _ _ hj', List.getD_eq_getElem _ _ hk'] at h
  have hjs : g.InCluster chain[j / g.csize] (clust2sect g chain[j / g.csize] + j % g.csize) :=
    ⟨Nat.le_add_right .., by omega⟩
  have hks : g.InCluster chain[k / g.csize] (clust2sect g chain[j / g.csize] + j % g.csize) :=
    ⟨by omega, by omega⟩
  have hsame := hjs.unique (hcl _ (List.getElem_mem hj')) (hcl _ (List.getElem_mem hk')) hks
  have hindex := (List.Nodup.getElem_inj_iff hnodup).mp hsame
  rw [hsame] at h
  rw [← Nat.div_add_mod j g.csize, ← Nat.div_add_mod k g.csize, hindex]
  omega

end Geometry

/-! ## What a file holds -/

namespace File

/-- Sector `k` of a file: the buffer if that is to be written there, else the drive. -/
def sector (g : Geometry) (v : Volume) (f : File) (chain : List Nat) (k : Nat) : Sector :=
  if f.dirty = true ∧ f.dsect = g.sectorNo chain k then f.buf
  else v.disk.data (g.sectorNo chain k)

def byte (g : Geometry) (v : Volume) (f : File) (chain : List Nat) (p : Nat) : UInt8 :=
  byteIn (f.sector g v chain (p / 512)) p

/-- What is true of a file object whatever failed. -/
structure Held (g : Geometry) (f : File) (chain : List Nat) : Prop where
  start : f.sclust = chain.headD 0
  room : f.fsize ≤ chain.length * g.csize * 512
  placed : f.dsect = 0 ∨ g.Owns chain f.dsect
  lost : f.dsect = 0 → f.dirty = false

/-- What is true of it while nothing did: the current cluster is that of the byte before
the pointer, and a pointer inside of a sector has that sector in the buffer. -/
structure Ready (g : Geometry) (v : Volume) (f : File) (chain : List Nat) : Prop
    extends Held g f chain where
  reach : f.fptr ≤ chain.length * g.csize * 512
  current : f.fptr ≠ 0 → f.clust = chain.getD ((f.fptr - 1) / 512 / g.csize) 0
  here : f.fptr % 512 ≠ 0 → f.dsect = g.sectorNo chain (f.fptr / 512)
  clean : f.dirty = false → f.dsect ≠ 0 → v.disk.data f.dsect = f.buf

end File

end Fat
end ImuFirmware
