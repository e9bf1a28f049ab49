/-
`f_read`.

Reading follows the chain and never stretches it.  Whole sectors go past the buffer, with
what is still to be written put over what the drive had; the rest comes out of the buffer.
What the file holds stays, also where a transfer fails.
-/
import ImuFirmware.Fat.Content

namespace ImuFirmware
namespace Fat

open Storage

/-- The cluster at the pointer, which is at the start of one. -/
def followCluster (g : Geometry) (v : Volume) (f : File) : Nat × Volume :=
  if f.fptr = 0 then (f.sclust, v) else getFat g v f.clust

def seekCluster (g : Geometry) (v : Volume) (f : File) : Flow × Volume × File :=
  if f.csect g = 0 then
    match followCluster g v f with
    | (clst, v) =>
        if clst < 2 then (.abort .intErr, v, f)
        else if clst = diskError then (.abort .diskErr, v, f)
        else (.go, v, { f with clust := clst })
  else (.go, v, f)

/-- `cc` sectors past the buffer, which is put over its own one if that is to be written. -/
def readSectors (v : Volume) (f : File) (sect cc : Nat) : Flow × List UInt8 × Volume × File :=
  match v.disk.read sect with
  | (true, buf, d) =>
      (.go, (List.range (512 * cc)).map fun n => byteIn
        ((if f.dirty ∧ dwordSub f.dsect sect < cc then
            Function.update buf (dwordSub f.dsect sect) f.buf
          else buf) (n / 512)) n, { v with disk := d }, f)
  | (false, _, d) => (.abort .diskErr, [], { v with disk := d }, f)

/-- The buffer moves to a sector. -/
def loadBuffer (v : Volume) (f : File) (sect : Nat) : Flow × Volume × File :=
  if f.dsect ≠ sect then
    match writeBack v f with
    | (.go, v, f) =>
        match v.disk.read sect with
        | (true, buf, d) => (.go, { v with disk := d }, { f with buf := buf 0, dsect := sect })
        | (false, buf, d) => (.abort .diskErr, { v with disk := d }, { f with buf := buf 0 })
    | (flow, v, f) => (flow, v, f)
  else (.go, v, f)

/-- What the buffer has at the pointer. -/
def readPart (v : Volume) (f : File) (btr : Nat) : Flow × List UInt8 × Volume × File :=
  (.go, (List.range (min (512 - f.fptr % 512) btr)).map fun n => byteIn f.buf (f.fptr + n), v, f)

/-- How many sectors go past the buffer: up to the end of the cluster. -/
def clipSectors (g : Geometry) (f : File) (btr : Nat) : Nat :=
  if g.csize < f.csect g + btr / 512 then g.csize - f.csect g else btr / 512

/-- The start of a sector. -/
def readSector (g : Geometry) (v : Volume) (f : File) (btr : Nat) :
    Flow × List UInt8 × Volume × File :=
  if clust2sect g f.clust = 0 then (.abort .intErr, [], v, f)
  else if btr / 512 ≠ 0 then
    readSectors v f (clust2sect g f.clust + f.csect g) (clipSectors g f btr)
  else
    Flow.andThen [] (loadBuffer v f (clust2sect g f.clust + f.csect g)) fun v f =>
      readPart v f btr

/-- One round of the loop. -/
def readRound (g : Geometry) (v : Volume) (f : File) (btr : Nat) :
    Flow × List UInt8 × Volume × File :=
  if f.fptr % 512 = 0 then
    Flow.andThen [] (seekCluster g v f) fun v f => readSector g v f btr
  else readPart v f btr

theorem clipSectors_pos {g : Geometry} {f : File} {btr : Nat} (h : btr / 512 ≠ 0) :
    0 < clipSectors g f btr := by
  have := csect_lt g f
  unfold clipSectors
  split <;> omega

theorem readPart_length (v : Volume) (f : File) (btr : Nat) :
    (readPart v f btr).2.1.length = min (512 - f.fptr % 512) btr := by
  show (List.map _ _).length = _
  rw [List.length_map, List.length_range]

theorem readSectors_length {v v' : Volume} {f f' : File} {sect cc : Nat} {bs : List UInt8}
    (h : readSectors v f sect cc = (.go, bs, v', f')) : bs.length = 512 * cc := by
  unfold readSectors at h
  split at h
  · cases h
    rw [List.length_map, List.length_range]
  · cases h

theorem readRound_pos {g : Geometry} {v v' : Volume} {f f' : File} {btr : Nat} {bs : List UInt8}
    (hmore : btr ≠ 0) (h : readRound g v f btr = (.go, bs, v', f')) : 0 < bs.length := by
  have hpart : ∀ (v : Volume) (f : File), readPart v f btr = (.go, bs, v', f') →
      0 < bs.length := by
    intro v f heq
    have hlen := readPart_length v f btr
    rw [heq] at hlen
    show 0 < bs.length
    rw [hlen]
    omega
  unfold readRound at h
  split at h
  swap
  · exact hpart v f h
  obtain ⟨v₁, f₁, -, h⟩ := Flow.andThen_eq_go h
  unfold readSector at h
  split at h
  · cases h
  split at h
  · next hwhole =>
      have hpos := clipSectors_pos (g := g) (f := f₁) hwhole
      rw [readSectors_length h]
      omega
  · obtain ⟨v₂, f₂, -, h⟩ := Flow.andThen_eq_go h
    exact hpart v₂ f₂ h

/-- The loop, with the bytes it read. -/
def readLoop (g : Geometry) (v : Volume) (f : File) (btr : Nat) :
    Flow × List UInt8 × Volume × File :=
  if _hmore : btr = 0 then (.go, [], v, f)
  else
    match _hround : readRound g v f btr with
    | (.go, bs, v, f) =>
        let out := readLoop g v (f.advance bs.length) (btr - bs.length)
        (out.1, bs ++ out.2.1, out.2.2)
    | (flow, _, v, f) => (flow, [], v, f)
  termination_by btr
  decreasing_by
    have hpos := readRound_pos _hmore _hround
    omega

/-- `f_read`: the result, the `*br` bytes, and the objects afterwards. -/
def fRead (g : Geometry) (v : Volume) (f : File) (btr : Nat) :
    FResult × List UInt8 × Volume × File :=
  if f.attached = false then (.invalidObject, [], v, f)
  else if f.err ≠ .ok then (f.err, [], v, f)
  else if f.canRead = false then (.denied, [], v, f)
  else
    match readLoop g v f (min btr (dwordSub f.fsize f.fptr)) with
    | (.abort res, bs, v, f) => (res, bs, v, { f with err := res })
    | (_, bs, v, f) => (.ok, bs, v, f)

variable {ι : Type} {g : Geometry} {i : ι} {v v' v'' : Volume} {chains : ι → List Nat}
  {f f' f'' : File} {bs bs' : List UInt8} {btr n s : Nat}

/-! ## The parts of a round -/

/-- A read of a part of the file: the bytes at the pointer, which has moved over them, while
the file holds what it held. -/
structure Fetched (g : Geometry) (i : ι) (v : Volume) (chains : ι → List Nat) (f : File)
    (bs : List UInt8) (v' : Volume) (f' : File) : Prop where
  moved : Moved g i v chains v' chains
  links : g.links v' = g.links v
  same : f' = { f with
    dirty := f'.dirty
    fptr := f.fptr + bs.length
    clust := f'.clust
    dsect := f'.dsect
    buf := f'.buf }
  placed : f'.dsect = 0 ∨ g.Owns (chains i) f'.dsect
  lost : f'.dsect = 0 → f'.dirty = false
  bytes : ∀ p, p < (chains i).length * g.csize * 512 →
    f'.byte g v' (chains i) p = f.byte g v (chains i) p
  got : bs = (List.range bs.length).map fun n => f.byte g v (chains i) (f.fptr + n)

/-- The cluster at the pointer is the next one of the chain. -/
theorem followCluster_cases (hs : Sound g v chains) (hf : f.Ready g v (chains i))
    (hcut : f.fptr % 512 = 0) (hstart : f.fptr / 512 % g.csize = 0)
    (hk : f.fptr / 512 / g.csize < (chains i).length) :
    ∃ v', Shown g v v' ∧
      (followCluster g v f = ((chains i).getD (f.fptr / 512 / g.csize) 0, v') ∨
        (followCluster g v f = (diskError, v') ∧ ¬v.disk.Reliable)) := by
  unfold followCluster
  by_cases hzero : f.fptr = 0
  · have hhead : f.sclust = (chains i).getD (f.fptr / 512 / g.csize) 0 := by
      rw [hf.start, hzero]
      simp only [Nat.zero_div]
      cases chains i <;> rfl
    rw [if_pos hzero, hhead]
    exact ⟨v, Shown.refl hs.coherent, Or.inl rfl⟩
  · rw [if_neg hzero]
    have hprev := previous_cluster hzero hcut hstart g.csize_pos
    rw [hf.current hzero]
    generalize f.fptr / 512 / g.csize = k at hk hprev
    generalize (f.fptr - 1) / 512 / g.csize = j at hprev
    subst hprev
    have hj : j < (chains i).length := by omega
    have hnext := (hs.apart.linked i).getElem_next hk
    obtain ⟨hcl, -, hval⟩ := Geometry.links_eq_next_iff.mp hnext
    rw [List.getD_eq_getElem _ _ hj, List.getD_eq_getElem _ _ hk]
    rcases hget : getFat g v (chains i)[j] with ⟨cs, v'⟩
    obtain ⟨hshown, he | ⟨he, hbad⟩⟩ := getFat_eq hs.coherent hcl hget
    · exact ⟨v', hshown, Or.inl (by rw [he, hval])⟩
    · exact ⟨v', hshown, Or.inr ⟨by rw [he], hbad⟩⟩

theorem seekCluster_cases (hs : Sound g v chains) (hf : f.Ready g v (chains i))
    (hcut : f.fptr % 512 = 0) (hk : f.fptr / 512 / g.csize < (chains i).length) :
    ∃ v', Shown g v v' ∧
      ((∃ f', seekCluster g v f = (.go, v', f') ∧ f' = { f with clust := f'.clust } ∧
          f'.clust = (chains i).getD (f.fptr / 512 / g.csize) 0) ∨
        (seekCluster g v f = (.abort .diskErr, v', f) ∧ ¬v.disk.Reliable)) := by
  unfold seekCluster
  by_cases hstart : f.csect g = 0
  swap
  · rw [if_neg hstart]
    rw [csect_eq] at hstart
    have hzero : f.fptr ≠ 0 := by
      intro h
      rw [h] at hstart
      simp at hstart
    have hprev := same_cluster hcut hstart g.csize_pos
    exact ⟨v, Shown.refl hs.coherent, Or.inl ⟨f, rfl, rfl, hprev ▸ hf.current hzero⟩⟩
  rw [if_pos hstart]
  rw [csect_eq] at hstart
  obtain ⟨v', hshown, hnext | ⟨hnext, hbad⟩⟩ := followCluster_cases hs hf hcut hstart hk
  · have hcl : g.IsCluster ((chains i).getD (f.fptr / 512 / g.csize) 0) := by
      rw [List.getD_eq_getElem _ _ hk]
      exact hs.isCluster (List.getElem_mem hk)
    have herr : (chains i).getD (f.fptr / 512 / g.csize) 0 ≠ diskError := fun h =>
      not_isCluster_diskError g (h ▸ hcl)
    refine ⟨v', hshown, Or.inl ⟨{ f with
      clust := (chains i).getD (f.fptr / 512 / g.csize) 0 }, ?_, rfl, rfl⟩⟩
    simp only [hnext, if_neg (Nat.not_lt.mpr hcl.1), if_neg herr]
  · refine ⟨v', hshown, Or.inr ⟨?_, hbad⟩⟩
    rw [hnext]
    rfl

theorem byteIn_congr {a b : Nat} (sect : Sector) (h : a % 512 = b % 512) :
    byteIn sect a = byteIn sect b :=
  congrArg sect (Fin.ext h)

/-- Whole sectors, as the file holds them. -/
theorem readSectors_cases (hs : Sound g v chains) (hb : Buffered g v f (chains i)) {k cc : Nat}
    (hk : k / g.csize < (chains i).length) (hcc : k % g.csize + cc ≤ g.csize) :
    ∃ v', Moved g i v chains v' chains ∧ g.links v' = g.links v ∧ v'.disk.data = v.disk.data ∧
      (readSectors v f (g.sectorNo (chains i) k) cc =
          (.go, (List.range (512 * cc)).map fun n => f.byte g v (chains i) (k * 512 + n), v', f) ∨
        (¬v.disk.Reliable ∧
          readSectors v f (g.sectorNo (chains i) k) cc = (.abort .diskErr, [], v', f))) := by
  have hsame : ∀ d : Drive Sector, d.data = v.disk.data →
      ∀ s, ¬g.Owns (chains i) s → d.data s = v.disk.data s := fun _ h s _ => congrFun h s
  unfold readSectors
  obtain ⟨d, hr, hafter, hdata⟩ | ⟨hbad, junk, d, hr, hafter, hdata⟩ :=
    v.disk.read_cases (g.sectorNo (chains i) k)
  swap
  · exact ⟨{ v with disk := d }, moved_disk hs hafter (hsame d hdata),
      links_disk hs (hsame d hdata), hdata, Or.inr ⟨hbad, by rw [hr]⟩⟩
  refine ⟨{ v with disk := d }, moved_disk hs hafter (hsame d hdata),
    links_disk hs (hsame d hdata), hdata, Or.inl ?_⟩
  rw [hr]
  simp only
  congr 2
  refine List.map_congr_left fun n hn => ?_
  have hlt : n < 512 * cc := List.mem_range.mp hn
  have hsect : (k * 512 + n) / 512 = k + n / 512 := by omega
  have hat : g.sectorNo (chains i) (k + n / 512) = g.sectorNo (chains i) k + n / 512 :=
    sectorNo_add (by omega)
  obtain ⟨hcached, hsub⟩ := cached_iff hs hb.placed hk hcc
  rw [byteIn_congr (b := k * 512 + n) _ (by omega)]
  unfold File.byte
  congr 1
  rw [hsect, File.sector, hat]
  by_cases hdirty : f.dirty = true ∧ f.dsect = g.sectorNo (chains i) k + n / 512
  · -- the buffer is put over this sector
    have hin : g.sectorNo (chains i) k ≤ f.dsect ∧ f.dsect < g.sectorNo (chains i) k + cc := by
      omega
    have hindex : n / 512 = dwordSub f.dsect (g.sectorNo (chains i) k) := by
      rw [hsub hin.1]
      omega
    rw [if_pos hdirty, if_pos ⟨hdirty.1, hcached.mpr hin⟩, hindex, Function.update_self]
  · rw [if_neg hdirty]
    split
    · next hover =>
        have hin := hcached.mp hover.2
        refine Function.update_of_ne (fun hindex => hdirty ⟨hover.1, ?_⟩) ..
        rw [hsub hin.1] at hindex
        omega
    · rfl

/-- The buffer on another sector of the file, which holds what it held. -/
theorem loadBuffer_cases (hs : Sound g v chains) (hb : Buffered g v f (chains i))
    (hown : g.Owns (chains i) s) :
    ∃ v' f', Moved g i v chains v' chains ∧ g.links v' = g.links v ∧
      f' = { f with dirty := f'.dirty, dsect := f'.dsect, buf := f'.buf } ∧
      (f'.dsect = 0 ∨ g.Owns (chains i) f'.dsect) ∧ (f'.dsect = 0 → f'.dirty = false) ∧
      (∀ k, f'.sector g v' (chains i) k = f.sector g v (chains i) k) ∧
      ((loadBuffer v f s = (.go, v', f') ∧ f'.dsect = s ∧ Buffered g v' f' (chains i)) ∨
        (loadBuffer v f s = (.abort .diskErr, v', f') ∧ ¬v.disk.Reliable)) := by
  unfold loadBuffer
  by_cases hhere : f.dsect = s
  · rw [if_neg (not_not_intro hhere)]
    exact ⟨v, f, Moved.refl hs, rfl, rfl, hb.placed, hb.lost, fun _ => rfl,
      Or.inl ⟨rfl, hhere, hb⟩⟩
  rw [if_pos hhere]
  obtain ⟨v₁, hm, hlinks, ⟨hwb, hclean, hdata⟩ | ⟨hbad, hwb, hsector⟩⟩ :=
    writeBack_cases hs hb.placed hb.lost
  swap
  · rw [hwb]
    exact ⟨v₁, f, hm, hlinks, rfl, hb.placed, hb.lost, hsector, Or.inr ⟨rfl, hbad⟩⟩
  rw [hwb]
  have hkept : ∀ {d : Drive Sector} {f' : File}, d.data = v₁.disk.data → f'.dirty = false →
      ∀ k, f'.sector g { v₁ with disk := d } (chains i) k = f.sector g v (chains i) k := by
    intro d f' hd hf' k
    rw [← hdata, File.sector, if_neg fun h => Bool.noConfusion (hf'.symm.trans h.1)]
    exact congrFun hd _
  have hsame : ∀ {d : Drive Sector}, d.data = v₁.disk.data →
      ∀ s, ¬g.Owns (chains i) s → d.data s = v₁.disk.data s := fun h s _ => congrFun h s
  obtain ⟨d, hr, hafter, hd⟩ | ⟨hbad, junk, d, hr, hafter, hd⟩ := v₁.disk.read_cases s
  · simp only [hr]
    refine ⟨{ v₁ with disk := d }, { f with dirty := false, dsect := s, buf := v₁.disk.data s },
      hm.trans (moved_disk hm.sound hafter (hsame hd)),
      (links_disk hm.sound (hsame hd)).trans hlinks, rfl, Or.inr hown, fun _ => rfl,
      hkept hd rfl, Or.inl ⟨rfl, rfl, Or.inr hown, fun _ => rfl, fun _ _ => ?_⟩⟩
    exact congrFun hd s
  · simp only [hr]
    refine ⟨{ v₁ with disk := d }, { f with dirty := false, buf := junk 0 },
      hm.trans (moved_disk hm.sound hafter (hsame hd)),
      (links_disk hm.sound (hsame hd)).trans hlinks, rfl, hb.placed, fun _ => rfl,
      hkept hd rfl, Or.inr ⟨rfl, fun hr' => hbad (hr'.after hm.after)⟩⟩

/-! ## A round of the loop -/

/-- What a round comes to. -/
inductive ReadRound (g : Geometry) (i : ι) (v : Volume) (chains : ι → List Nat) (f : File)
    (btr : Nat) : Flow × List UInt8 × Volume × File → Prop
  | went {bs : List UInt8} {v' : Volume} {f' : File} (hn : bs.length ≤ btr)
      (hread : Fetched g i v chains f bs v' (f'.advance bs.length))
      (hready : (f'.advance bs.length).Ready g v' (chains i)) :
      ReadRound g i v chains f btr (.go, bs, v', f')
  | aborted {bs : List UInt8} {v' : Volume} {f' : File}
      (hread : Fetched g i v chains f [] v' f') (hbad : ¬v.disk.Reliable) :
      ReadRound g i v chains f btr (.abort .diskErr, bs, v', f')

/-- What the buffer has of the sector at the pointer. -/
theorem readPart_round {v₁ : Volume} {f₁ : File} (hm : Moved g i v chains v₁ chains)
    (hlinks : g.links v₁ = g.links v) (hf : f.Held g (chains i))
    (hsame : f₁ = { f with
      dirty := f₁.dirty, clust := f₁.clust, dsect := f₁.dsect, buf := f₁.buf })
    (hb : Buffered g v₁ f₁ (chains i)) (hmore : btr ≠ 0)
    (hk : f.fptr / 512 / g.csize < (chains i).length)
    (hat : f₁.dsect = g.sectorNo (chains i) (f.fptr / 512))
    (hclust : f₁.clust = (chains i).getD (f.fptr / 512 / g.csize) 0)
    (hkept : ∀ k, k < (chains i).length * g.csize →
      f₁.sector g v₁ (chains i) k = f.sector g v (chains i) k) :
    ReadRound g i v chains f btr (readPart v₁ f₁ btr) := by
  have hptr : f₁.fptr = f.fptr := by rw [hsame]
  unfold readPart
  rw [hptr]
  generalize hw : min (512 - f.fptr % 512) btr = w
  have hlen : ((List.range w).map fun n => byteIn f₁.buf (f.fptr + n)).length = w := by
    rw [List.length_map, List.length_range]
  refine .went (by omega) ⟨hm, hlinks, ?_, hb.placed, hb.lost, fun p hp => ?_, ?_⟩ ?_
  · show File.advance _ _ = _
    rw [hlen, hsame]
    rfl
  · show byteIn (f₁.sector g v₁ (chains i) (p / 512)) p = _
    rw [hkept _ (by omega)]
    rfl
  · rw [hlen]
    refine List.map_congr_left fun n hn => ?_
    have hlt : n < w := List.mem_range.mp hn
    have hsect : (f.fptr + n) / 512 = f₁.fptr / 512 := by omega
    rw [byte_here hm.sound hb (hptr ▸ sector_lt hk) (hptr ▸ hat) hsect]
    unfold File.byte
    rw [hkept _ (by rw [hsect, hptr]; exact sector_lt hk)]
  · rw [hlen]
    refine ready_within ⟨?_, ?_, hb.placed, hb.lost⟩ hb (hptr ▸ hk) (hptr ▸ hat)
      (hptr ▸ hclust) (by omega) (by omega)
    · rw [hsame]; exact hf.start
    · rw [hsame]; exact hf.room

theorem sector_of_data (h : v'.disk.data = v.disk.data) (chain : List Nat) (k : Nat) :
    f.sector g v' chain k = f.sector g v chain k := by
  unfold File.sector
  rw [h]

/-- A round at the start of a sector, in the right cluster. -/
theorem readSector_round {v₁ : Volume} {f₁ : File} (hm : Moved g i v chains v₁ chains)
    (hlinks : g.links v₁ = g.links v) (hf : f.Held g (chains i))
    (hsame : f₁ = { f with clust := f₁.clust }) (hb : Buffered g v₁ f₁ (chains i))
    (hmore : btr ≠ 0) (hcut : f.fptr % 512 = 0)
    (hk : f.fptr / 512 / g.csize < (chains i).length)
    (hclust : f₁.clust = (chains i).getD (f.fptr / 512 / g.csize) 0)
    (hkept : ∀ k, k < (chains i).length * g.csize →
      f₁.sector g v₁ (chains i) k = f.sector g v (chains i) k) :
    ReadRound g i v chains f btr (readSector g v₁ f₁ btr) := by
  have hptr : f₁.fptr = f.fptr := by rw [hsame]
  have hheld : f₁.Held g (chains i) := by
    rw [hsame]
    exact ⟨hf.start, hf.room, hf.placed, hf.lost⟩
  obtain ⟨hzero, hsect⟩ := sect_at hm.sound (hptr ▸ hk) (hptr ▸ hclust)
  have hcsect : f₁.csect g = f.fptr / 512 % g.csize := by rw [csect_eq, hptr]
  unfold readSector
  rw [if_neg hzero, hsect, hptr]
  by_cases hwhole : btr / 512 ≠ 0
  · -- past the buffer
    rw [if_pos hwhole]
    have hlt := csect_lt g f₁
    have hpos := clipSectors_pos (g := g) (f := f₁) hwhole
    have hclip : f.fptr / 512 % g.csize + clipSectors g f₁ btr ≤ g.csize ∧
        512 * clipSectors g f₁ btr ≤ btr := by
      unfold clipSectors
      split <;> omega
    generalize clipSectors g f₁ btr = cc at hpos hclip
    obtain ⟨hcc, hfit⟩ := hclip
    obtain ⟨v₂, hm₂, hlinks₂, hdata, hrun | ⟨hbad, hrun⟩⟩ := readSectors_cases hm.sound hb hk hcc
    · rw [hrun]
      have hlen : ((List.range (512 * cc)).map fun n =>
          f₁.byte g v₁ (chains i) (f.fptr / 512 * 512 + n)).length = 512 * cc := by
        rw [List.length_map, List.length_range]
      have hb₂ : Buffered g v₂ f₁ (chains i) :=
        ⟨hb.placed, hb.lost, fun hd hsome => (congrFun hdata _).trans (hb.clean hd hsome)⟩
      refine .went (by rw [hlen]; exact hfit) ⟨hm.trans hm₂, hlinks₂.trans hlinks, ?_, hb.placed,
        hb.lost, fun p hp => ?_, ?_⟩ ?_
      · show File.advance _ _ = _
        rw [hlen, hsame]
        rfl
      · show byteIn (f₁.sector g v₂ (chains i) (p / 512)) p = _
        rw [sector_of_data hdata, hkept _ (by omega)]
        rfl
      · rw [hlen]
        refine List.map_congr_left fun n hn => ?_
        have hlow : n < 512 * cc := List.mem_range.mp hn
        have hn : f.fptr / 512 * 512 + n = f.fptr + n := by omega
        have hsector : (f.fptr + n) / 512 = f.fptr / 512 + n / 512 := by omega
        rw [hn]
        unfold File.byte
        rw [hkept _ (by rw [hsector]; exact sector_lt (cluster_add hk (by omega)))]
      · rw [hlen]
        exact ready_whole hheld hb₂ (hptr ▸ hcut) (hptr ▸ hk) (hptr ▸ hclust) hpos (hptr ▸ hcc)
    · rw [hrun]
      refine .aborted ⟨hm.trans hm₂, hlinks₂.trans hlinks, ?_, hb.placed, hb.lost,
        fun p hp => ?_, rfl⟩ fun hr => hbad (hr.after hm.after)
      · rw [hsame]
        rfl
      · unfold File.byte
        rw [sector_of_data hdata, hkept _ (by omega)]
  · -- through the buffer
    rw [if_neg hwhole]
    obtain ⟨v₂, f₂, hm₂, hlinks₂, hsame₂, hplaced, hlost, hsector, ⟨hrun, hat, hb₂⟩ |
      ⟨hrun, hbad⟩⟩ := loadBuffer_cases hm.sound hb (Geometry.owns_sectorNo (sector_lt hk))
    · rw [hrun]
      refine readPart_round (hm.trans hm₂) (hlinks₂.trans hlinks) hf ?_ hb₂ hmore hk hat ?_
        fun k hk => (hsector k).trans (hkept k hk)
      · rw [hsame₂, hsame]
      · rw [hsame₂]
        exact hclust
    · rw [hrun]
      refine .aborted ⟨hm.trans hm₂, hlinks₂.trans hlinks, ?_, hplaced, hlost, fun p hp => ?_,
        rfl⟩ fun hr => hbad (hr.after hm.after)
      · rw [hsame₂, hsame]
        rfl
      · unfold File.byte
        rw [hsector, hkept _ (by omega)]

theorem readRound_round (hs : Sound g v chains) (hf : f.Ready g v (chains i)) (hmore : btr ≠ 0)
    (hend : f.fptr + btr ≤ f.fsize) : ReadRound g i v chains f btr (readRound g v f btr) := by
  have hk : f.fptr / 512 / g.csize < (chains i).length :=
    cluster_lt (by have := hf.room; omega)
  unfold readRound
  by_cases hcut : f.fptr % 512 = 0
  · rw [if_pos hcut]
    obtain ⟨v₁, hshown, ⟨f₁, hseek, hsame, hclust⟩ | ⟨hseek, hbad⟩⟩ :=
      seekCluster_cases hs hf hcut hk
    all_goals
      have hm : Moved g i v chains v₁ chains := shown_moved hs hshown
      obtain ⟨hbuf, hsector⟩ := carried_sectors hs hm (fun s hhome _ => hshown.view s hhome) hf
      rw [hseek]
    · refine readSector_round hm hshown.links hf.toHeld hsame ?_ hmore hcut hk hclust ?_
      · rw [hsame]
        exact ⟨hbuf.placed, hbuf.lost, hbuf.clean⟩
      · rw [hsame]
        exact hsector
    · exact .aborted ⟨hm, hshown.links, rfl, hf.placed, hf.lost,
        fun p hp => congrArg (byteIn · p) (hsector _ (by omega)), rfl⟩ hbad
  · rw [if_neg hcut]
    have hzero : f.fptr ≠ 0 := by omega
    have hsect : (f.fptr - 1) / 512 = f.fptr / 512 := by omega
    exact readPart_round (Moved.refl hs) rfl hf.toHeld rfl hf.buffered hmore hk (hf.here hcut)
      (hsect ▸ hf.current hzero) fun _ _ => rfl

/-! ## The loop -/

theorem Fetched.refl (hs : Sound g v chains) (hf : f.Held g (chains i)) :
    Fetched g i v chains f [] v f :=
  ⟨Moved.refl hs, rfl, rfl, hf.placed, hf.lost, fun _ _ => rfl, rfl⟩

theorem Fetched.fptr (h : Fetched g i v chains f bs v' f') :
    f'.fptr = f.fptr + bs.length ∧ f'.fsize = f.fsize := by
  constructor <;> rw [h.same]

theorem Fetched.trans (h : Fetched g i v chains f bs v' f')
    (h' : Fetched g i v' chains f' bs' v'' f'')
    (hroom : f.fptr + (bs ++ bs').length ≤ (chains i).length * g.csize * 512) :
    Fetched g i v chains f (bs ++ bs') v'' f'' := by
  rw [List.length_append] at hroom
  refine ⟨h.moved.trans h'.moved, h'.links.trans h.links, ?_, h'.placed, h'.lost,
    fun p hp => (h'.bytes p hp).trans (h.bytes p hp), ?_⟩
  · rw [h'.same, h.same, List.length_append, Nat.add_assoc]
  · rw [List.length_append, List.range_add, List.map_append, ← h.got, List.map_map]
    congr 1
    refine h'.got.trans (List.map_congr_left fun n hn => ?_)
    have hlt := List.mem_range.mp hn
    rw [h.fptr.1]
    show _ = f.byte g v (chains i) (f.fptr + (bs.length + n))
    rw [← Nat.add_assoc]
    exact h.bytes _ (by omega)

/-- What the loop comes to. -/
inductive ReadLooped (g : Geometry) (i : ι) (v : Volume) (chains : ι → List Nat) (f : File)
    (btr : Nat) : Flow × List UInt8 × Volume × File → Prop
  | done {bs : List UInt8} {v' : Volume} {f' : File} (hn : bs.length = btr)
      (hread : Fetched g i v chains f bs v' f') (hready : f'.Ready g v' (chains i)) :
      ReadLooped g i v chains f btr (.go, bs, v', f')
  | aborted {bs : List UInt8} {v' : Volume} {f' : File} (hn : bs.length < btr)
      (hread : Fetched g i v chains f bs v' f') (hbad : ¬v.disk.Reliable) :
      ReadLooped g i v chains f btr (.abort .diskErr, bs, v', f')

/-- One more round before the loop. -/
theorem ReadLooped.cons {out : Flow × List UInt8 × Volume × File} (hn : bs.length ≤ btr)
    (hroom : f.fptr + btr ≤ (chains i).length * g.csize * 512)
    (h : Fetched g i v chains f bs v' f')
    (h' : ReadLooped g i v' chains f' (btr - bs.length) out) :
    ReadLooped g i v chains f btr (out.1, bs ++ out.2.1, out.2.2) := by
  cases h' with
  | @done bs' v'' f'' hn' hread hready =>
      have hlen : (bs ++ bs').length = bs.length + bs'.length := List.length_append
      have hall : (bs ++ bs').length = btr := by omega
      have hfit : f.fptr + (bs ++ bs').length ≤ (chains i).length * g.csize * 512 := by omega
      exact .done hall (h.trans hread hfit) hready
  | @aborted bs' v'' f'' hn' hread hbad =>
      have hlen : (bs ++ bs').length = bs.length + bs'.length := List.length_append
      have hless : (bs ++ bs').length < btr := by omega
      have hfit : f.fptr + (bs ++ bs').length ≤ (chains i).length * g.csize * 512 := by omega
      exact .aborted hless (h.trans hread hfit) fun hr => hbad (hr.after h.moved.after)

theorem readLoop_go (hmore : btr ≠ 0) (h : readRound g v f btr = (.go, bs, v', f')) :
    readLoop g v f btr =
      ((readLoop g v' (f'.advance bs.length) (btr - bs.length)).1,
        bs ++ (readLoop g v' (f'.advance bs.length) (btr - bs.length)).2.1,
        (readLoop g v' (f'.advance bs.length) (btr - bs.length)).2.2) := by
  rw [readLoop, dif_neg hmore]
  split
  · next heq =>
      cases h.symm.trans heq
      rfl
  · next hstop heq =>
      cases h.symm.trans heq
      exact absurd rfl hstop

theorem readLoop_stop {flow : Flow} (hmore : btr ≠ 0) (hstop : flow ≠ .go)
    (h : readRound g v f btr = (flow, bs, v', f')) :
    readLoop g v f btr = (flow, [], v', f') := by
  rw [readLoop, dif_neg hmore]
  split
  · next heq =>
      cases h.symm.trans heq
      exact absurd rfl hstop
  · next heq =>
      cases h.symm.trans heq
      rfl

theorem readLoop_looped (hs : Sound g v chains) (hf : f.Ready g v (chains i)) (btr : Nat)
    (hend : f.fptr + btr ≤ f.fsize) :
    ReadLooped g i v chains f btr (readLoop g v f btr) := by
  induction v, f, btr using readLoop.induct g with
  | case1 v f =>
      rw [readLoop, dif_pos rfl]
      exact .done rfl (.refl hs hf.toHeld) hf
  | case2 v f btr hmore bs v' f' hround ih =>
      have h := readRound_round hs hf hmore hend
      rw [hround] at h
      rw [readLoop_go hmore hround]
      cases h with
      | went hn hread hready =>
          have hroom := Nat.le_trans hend hf.room
          refine .cons hn hroom hread (ih hread.moved.sound hready ?_)
          rw [hread.fptr.1, hread.fptr.2]
          omega
  | case3 v f btr hmore flow bs v' f' hstop hround =>
      have h := readRound_round hs hf hmore hend
      rw [hround] at h
      rw [readLoop_stop hmore hstop hround]
      cases h with
      | went => exact absurd rfl hstop
      | aborted hread hbad => exact .aborted (Nat.pos_of_ne_zero hmore) hread hbad

/-! ## `f_read` on the bytes -/

theorem Fetched.content (h : Fetched g i v chains f bs v' f') (hroom : f.Held g (chains i)) :
    f'.content g v' (chains i) = f.content g v (chains i) := by
  rw [File.content, File.content, h.fptr.2]
  refine List.map_congr_left fun p hp => h.bytes p ?_
  exact Nat.lt_of_lt_of_le (List.mem_range.mp hp) hroom.room

theorem Fetched.bytes_eq (h : Fetched g i v chains f bs v' f')
    (hfit : f.fptr + bs.length ≤ f.fsize) :
    bs = ((f.content g v (chains i)).drop f.fptr).take bs.length := by
  refine List.ext_getElem? fun n => ?_
  by_cases hn : n < bs.length
  · rw [List.getElem?_take_of_lt hn, List.getElem?_drop, getElem?_content, if_pos (by omega), h.got,
      List.getElem?_map, List.getElem?_range hn]
    rfl
  · rw [List.getElem?_eq_none (by omega), List.getElem?_eq_none]
    rw [List.length_take]
    omega

theorem Fetched.held (h : Fetched g i v chains f bs v' f') (hf : f.Held g (chains i)) :
    f'.Held g (chains i) := by
  refine ⟨?_, ?_, h.placed, h.lost⟩
  · rw [h.same]; exact hf.start
  · rw [h.same]; exact hf.room

/-- What `f_read` comes to, in bytes. -/
inductive Fetch (g : Geometry) (i : ι) (v : Volume) (chains : ι → List Nat) (f : File)
    (btr : Nat) : FResult × List UInt8 × Volume × File → Prop
  | read {bs : List UInt8} {v' : Volume} {f' : File} (htried : Tried g i v chains f v' chains f')
      (hlinks : g.links v' = g.links v) (hfine : f'.err = .ok) (hchanged : f'.changed = f.changed)
      (hcontent : f'.content g v' (chains i) = f.content g v (chains i))
      (hbytes : bs = ((f.content g v (chains i)).drop f.fptr).take btr)
      (hptr : f'.fptr = f.fptr + bs.length) : Fetch g i v chains f btr (.ok, bs, v', f')
  | failed {bs : List UInt8} {v' : Volume} {f' : File}
      (htried : Tried g i v chains f v' chains f') (hlinks : g.links v' = g.links v)
      (herr : f'.err = .diskErr)
      (hcontent : f'.content g v' (chains i) = f.content g v (chains i))
      (hbytes : bs = ((f.content g v (chains i)).drop f.fptr).take bs.length)
      (hbad : ¬v.disk.Reliable) : Fetch g i v chains f btr (.diskErr, bs, v', f')

theorem fRead_fetch (hs : Sound g v chains) (hu : Usable g v f (chains i))
    (hopen : f.attached = true ∧ f.err = .ok ∧ f.canRead = true) (btr : Nat) :
    Fetch g i v chains f btr (fRead g v f btr) := by
  have hin := hu.inside hopen.2.1
  have hsize := hu.size
  have hremain : dwordSub f.fsize f.fptr = f.fsize - f.fptr := by
    unfold dwordSub
    omega
  unfold fRead
  rw [if_neg (by simp [hopen]), if_neg (by simp [hopen]), if_neg (by simp [hopen]), hremain]
  generalize hmin : min btr (f.fsize - f.fptr) = len
  have h := readLoop_looped hs (hu.ready hopen.2.1) len (by omega)
  generalize readLoop g v f len = out at h
  cases h with
  | @done bs v' f' hn hread hready =>
      have hfine : f'.err = .ok := by
        rw [hread.same]
        exact hopen.2.1
      obtain ⟨hptr, hold⟩ := hread.fptr
      refine .read ⟨hread.moved, ⟨hready.toHeld, fun _ => hready, fun _ => ?_, ?_⟩, ?_⟩ hread.links
        hfine ?_ (hread.content hu.held) ?_ hptr
      · omega
      · omega
      · rw [hread.same]
      · rw [hread.same]
      · have hall := hread.bytes_eq (by omega)
        rw [hall, hn, ← hmin, List.take_eq_take_iff, List.length_drop, length_content]
        omega
  | @aborted bs v' f' hn hread hbad =>
      obtain ⟨hptr, hold⟩ := hread.fptr
      have hheld := hread.held hu.held
      refine .failed ⟨hread.moved, ⟨⟨hheld.start, hheld.room, hheld.placed, hheld.lost⟩,
        fun hok => (by cases hok), fun hok => (by cases hok), ?_⟩, ?_⟩ hread.links rfl
        (hread.content hu.held) (hread.bytes_eq (by omega)) hbad
      · show f'.fsize < _
        omega
      · rw [hread.same]

/-- `f_read` returns what the file holds from the pointer on, as much as was asked for and
there is, and changes neither that nor any other file.  Only a failed transfer ends it
before, and then what was read is right as far as it goes. -/
theorem fRead_returns (hs : Sound g v chains) (hu : Usable g v f (chains i))
    (hopen : f.attached = true ∧ f.err = .ok ∧ f.canRead = true) (btr : Nat) :
    ∃ res bs v' f', fRead g v f btr = (res, bs, v', f') ∧
      Sound g v' chains ∧ Usable g v' f' (chains i) ∧ g.links v' = g.links v ∧
      f'.content g v' (chains i) = f.content g v (chains i) ∧
      (∀ j, j ≠ i → ∀ s, g.Owns (chains j) s → v'.disk.data s = v.disk.data s) ∧
      (res = .ok → bs = ((f.content g v (chains i)).drop f.fptr).take btr ∧
        f'.fptr = f.fptr + bs.length) ∧
      (res ≠ .ok → f'.err = res ∧ ¬v.disk.Reliable ∧
        bs = ((f.content g v (chains i)).drop f.fptr).take bs.length) := by
  have h := fRead_fetch hs hu hopen btr
  rcases hrun : fRead g v f btr with ⟨res, bs, v', f'⟩
  rw [hrun] at h
  cases h with
  | read htried hlinks hfine hchanged hcontent hbytes hptr =>
      have hm := htried.moved
      exact ⟨_, _, _, _, rfl, hm.sound, htried.usable, hlinks, hcontent,
        fun j hj s hown => hm.other hs hj hown, fun _ => ⟨hbytes, hptr⟩,
        fun hres => absurd rfl hres⟩
  | failed htried hlinks herr hcontent hbytes hbad =>
      have hm := htried.moved
      exact ⟨_, _, _, _, rfl, hm.sound, htried.usable, hlinks, hcontent,
        fun j hj s hown => hm.other hs hj hown, fun hok => (by cases hok),
        fun _ => ⟨herr, hbad, hbytes⟩⟩

theorem fRead_of_note : ∃ res v' f',
    fRead floppy (mounted noteDrive) note 2 = (res, [72, 105], v', f') := by
  obtain ⟨res, bs, v', f', hrun, -, -, -, -, -, hok, hbad⟩ :=
    fRead_returns (i := ()) note_sound note_usable ⟨rfl, rfl, rfl⟩ 2
  have hfine : res = .ok := by
    by_contra hres
    exact (hbad hres).2.1 fun _ _ => rfl
  have hbytes : bs = [72, 105] := by
    rw [(hok hfine).1, note_content]
    rfl
  exact ⟨res, v', f', hbytes ▸ hrun⟩

end Fat
end ImuFirmware
