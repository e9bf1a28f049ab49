/-
`f_write`, whole.

`Wrote` says what the bytes of a file become in a part of the transfer: those written are
there, and those the file had before are as they were, up to where a transfer failed.
-/
import ImuFirmware.Fat.Transfer

namespace ImuFirmware
namespace Fat

open Storage

variable {ι : Type} {g : Geometry} {i : ι} {v v' v'' : Volume}
  {chains chains' chains'' : ι → List Nat} {f f' f'' : File} {wbuff : List UInt8} {n m : Nat}

theorem File.Ready.buffered (hf : f.Ready g v (chains i)) : Buffered g v f (chains i) :=
  ⟨hf.placed, hf.lost, hf.clean⟩

/-! ## A round of the loop -/

/-- `n` bytes of `wbuff` are in the file behind its pointer, which has moved over them, and
of the bytes it had only those less than `m` behind the pointer may have changed. -/
structure Wrote (g : Geometry) (i : ι) (v : Volume) (chains : ι → List Nat) (f : File)
    (wbuff : List UInt8) (n m : Nat) (v' : Volume) (chains' : ι → List Nat) (f' : File) :
    Prop where
  moved : Moved g i v chains v' chains'
  same : f' = { f with
    dirty := f'.dirty
    fptr := f.fptr + n
    sclust := f'.sclust
    clust := f'.clust
    dsect := f'.dsect
    buf := f'.buf }
  held : f'.Held g (chains' i)
  got : ∀ p, f.fptr ≤ p → p < f.fptr + n →
    f'.byte g v' (chains' i) p = wbuff.getD (p - f.fptr) 0
  kept : ∀ p, p < max f.fsize f.fptr → p < f.fptr ∨ f.fptr + m ≤ p →
    f'.byte g v' (chains' i) p = f.byte g v (chains i) p

/-- What a round comes to. -/
inductive Round (g : Geometry) (i : ι) (v : Volume) (chains : ι → List Nat) (f : File)
    (wbuff : List UInt8) : Flow × Nat × Volume × File → Prop
  | went {n : Nat} {v' : Volume} {chains' : ι → List Nat} {f' : File} (hn : n ≤ wbuff.length)
      (hwrote : Wrote g i v chains f wbuff n n v' chains' (f'.advance n))
      (hready : (f'.advance n).Ready g v' (chains' i)) :
      Round g i v chains f wbuff (.go, n, v', f')
  | full {v' : Volume} {chains' : ι → List Nat}
      (hwrote : Wrote g i v chains f wbuff 0 0 v' chains' f)
      (hready : f.Ready g v' (chains' i)) (hused : ∀ c, g.links v' c ≠ .free) :
      Round g i v chains f wbuff (.full, 0, v', f)
  | aborted {res : FResult} {n : Nat} {v' : Volume} {chains' : ι → List Nat} {f' : File}
      (hres : res ≠ .ok) (hwrote : Wrote g i v chains f wbuff 0 wbuff.length v' chains' f')
      (hwhy : v.disk.Reliable → Damaged g v) : Round g i v chains f wbuff (.abort res, n, v', f')

/-- The file at the start of a sector of its chain, with nothing left in its buffer. -/
structure Prepared (g : Geometry) (i : ι) (v : Volume) (chains : ι → List Nat) (f : File)
    (v' : Volume) (chains' : ι → List Nat) (f' : File) : Prop where
  moved : Moved g i v chains v' chains'
  same : f' = { f with dirty := false, sclust := f'.sclust, clust := f'.clust }
  start : f'.sclust = (chains' i).headD 0
  within : f.fptr / 512 / g.csize < (chains' i).length
  cluster : f'.clust = (chains' i).getD (f.fptr / 512 / g.csize) 0
  buffered : Buffered g v' f' (chains' i)
  bytes : ∀ p, p < max f.fsize f.fptr →
    byteIn (v'.disk.data (g.sectorNo (chains' i) (p / 512))) p = f.byte g v (chains i) p

theorem Moved.length_le (h : Moved g i v chains v' chains') :
    (chains i).length ≤ (chains' i).length := by
  obtain ⟨l, hl⟩ := h.more
  rw [hl, List.length_append]
  exact Nat.le_add_right ..

theorem room_of_length {a b k p : Nat} (h : a ≤ b) (hp : p ≤ a * k * 512) : p ≤ b * k * 512 :=
  Nat.le_trans hp (Nat.mul_le_mul_right 512 (Nat.mul_le_mul_right k h))

theorem byteIn_sectorsOf (wbuff : List UInt8) (k p : Nat) :
    byteIn (sectorsOf wbuff k) p = wbuff.getD (k * 512 + p % 512) 0 := rfl

theorem byteIn_copyIn (f : File) (wbuff : List UInt8) (w p : Nat) :
    byteIn (copyIn f wbuff w).buf p =
      if f.fptr % 512 ≤ p % 512 ∧ p % 512 < f.fptr % 512 + w then
        wbuff.getD (p % 512 - f.fptr % 512) 0
      else byteIn f.buf p := rfl

/-- Less than a sector, copied into the buffer that lies at the pointer.  `old` is what the
file held. -/
theorem writePart_bytes (wbuff : List UInt8) {old : Nat → UInt8} (hs : Sound g v chains)
    (hroom : max f.fsize f.fptr ≤ (chains i).length * g.csize * 512)
    (hk : f.fptr / 512 / g.csize < (chains i).length)
    (hat : f.dsect = g.sectorNo (chains i) (f.fptr / 512))
    (hbuf : ∀ p, p < max f.fsize f.fptr → p / 512 = f.fptr / 512 → byteIn f.buf p = old p)
    (hdata : ∀ p, p < max f.fsize f.fptr → p / 512 ≠ f.fptr / 512 →
      byteIn (v.disk.data (g.sectorNo (chains i) (p / 512))) p = old p)
    {w : Nat} (hw : f.fptr % 512 + w ≤ 512) :
    (∀ p, f.fptr ≤ p → p < f.fptr + w → (copyIn f wbuff w).byte g v (chains i) p =
        wbuff.getD (p - f.fptr) 0) ∧
      ∀ p, p < max f.fsize f.fptr → p < f.fptr ∨ f.fptr + w ≤ p →
        (copyIn f wbuff w).byte g v (chains i) p = old p := by
  have hhere : ∀ p, p / 512 = f.fptr / 512 →
      (copyIn f wbuff w).byte g v (chains i) p = byteIn (copyIn f wbuff w).buf p := by
    intro p hp
    unfold File.byte File.sector
    rw [hp, if_pos ⟨rfl, hat⟩]
  refine ⟨fun p hlow hhigh => ?_, fun p hp hout => ?_⟩
  · rw [hhere p (by omega), byteIn_copyIn, if_pos (by omega)]
    congr 1
    omega
  · by_cases hsame : p / 512 = f.fptr / 512
    · rw [hhere p hsame, byteIn_copyIn, if_neg (by omega)]
      exact hbuf p hp hsame
    · have hlt : p / 512 < (chains i).length * g.csize := by omega
      have hne : ¬f.dsect = g.sectorNo (chains i) (p / 512) := by
        rw [hat]
        exact fun h => hsame (hs.sectorNo_inj hlt (sector_lt hk) h.symm)
      rw [← hdata p hp hsame]
      unfold File.byte File.sector
      rw [if_neg fun h => hne h.2]

/-- The pointer after a part of the sector in the buffer. -/
theorem ready_within {chain : List Nat} {w : Nat} (hf : f.Held g chain)
    (hb : Buffered g v f chain) (hk : f.fptr / 512 / g.csize < chain.length)
    (hat : f.dsect = g.sectorNo chain (f.fptr / 512))
    (hclust : f.clust = chain.getD (f.fptr / 512 / g.csize) 0) (hpos : 0 < w)
    (hw : f.fptr % 512 + w ≤ 512) : (f.advance w).Ready g v chain := by
  have hlt := sector_lt hk
  have hsect : (f.fptr + w - 1) / 512 = f.fptr / 512 := by omega
  refine ⟨⟨hf.start, hf.room, hb.placed, hb.lost⟩, ?_, fun _ => ?_, fun hcut => ?_, hb.clean⟩
  · show f.fptr + w ≤ _
    omega
  · show f.clust = _
    rw [hclust, ← hsect]
    rfl
  · have hcut' : (f.fptr + w) % 512 ≠ 0 := hcut
    have hstay : (f.fptr + w) / 512 = f.fptr / 512 := by omega
    show f.dsect = g.sectorNo chain ((f.fptr + w) / 512)
    rw [hstay]
    exact hat

/-- The pointer after whole sectors of a cluster. -/
theorem ready_whole {chain : List Nat} {cc : Nat} (hf : f.Held g chain)
    (hb : Buffered g v f chain) (hcut : f.fptr % 512 = 0)
    (hk : f.fptr / 512 / g.csize < chain.length)
    (hclust : f.clust = chain.getD (f.fptr / 512 / g.csize) 0) (hpos : 0 < cc)
    (hcc : f.fptr / 512 % g.csize + cc ≤ g.csize) :
    (f.advance (512 * cc)).Ready g v chain := by
  refine ⟨⟨hf.start, hf.room, hb.placed, hb.lost⟩, ?_, fun _ => ?_, fun hoff => ?_, hb.clean⟩
  · have hlast : f.fptr / 512 + (cc - 1) < chain.length * g.csize :=
      sector_lt (cluster_add hk (by omega))
    show f.fptr + 512 * cc ≤ _
    omega
  · have hlast : (f.fptr + 512 * cc - 1) / 512 = f.fptr / 512 + (cc - 1) := by omega
    show f.clust = chain.getD ((f.fptr + 512 * cc - 1) / 512 / g.csize) 0
    rw [hlast, cluster_index (by omega)]
    exact hclust
  · have hoff' : (f.fptr + 512 * cc) % 512 ≠ 0 := hoff
    omega

/-- A round for less than a sector, with the buffer at the pointer. -/
theorem writePart_round {v₁ : Volume} {chains₁ : ι → List Nat} {f₁ : File}
    (hm : Moved g i v chains v₁ chains₁)
    (hroom : max f.fsize f.fptr ≤ (chains₁ i).length * g.csize * 512)
    (hmore : wbuff ≠ [])
    (hsame : f₁ = { f with
      dirty := f₁.dirty, sclust := f₁.sclust, clust := f₁.clust, dsect := f₁.dsect, buf := f₁.buf })
    (hstart : f₁.sclust = (chains₁ i).headD 0)
    (hk : f.fptr / 512 / g.csize < (chains₁ i).length)
    (hclust : f₁.clust = (chains₁ i).getD (f.fptr / 512 / g.csize) 0)
    (hat : f₁.dsect = g.sectorNo (chains₁ i) (f.fptr / 512))
    (hbuf : ∀ p, p < max f.fsize f.fptr → p / 512 = f.fptr / 512 →
      byteIn f₁.buf p = f.byte g v (chains i) p)
    (hdata : ∀ p, p < max f.fsize f.fptr → p / 512 ≠ f.fptr / 512 →
      byteIn (v₁.disk.data (g.sectorNo (chains₁ i) (p / 512))) p = f.byte g v (chains i) p) :
    Round g i v chains f wbuff (writePart v₁ f₁ wbuff) := by
  have hlen := List.length_pos_iff.mpr hmore
  have hptr : f₁.fptr = f.fptr := by rw [hsame]
  have hsize : f₁.fsize = f.fsize := by rw [hsame]
  unfold writePart
  rw [hptr]
  generalize hw : min (512 - f.fptr % 512) wbuff.length = w
  have hfit : f₁.fptr % 512 + w ≤ 512 := by omega
  rw [← hptr] at hk hclust hat
  rw [← hptr, ← hsize] at hbuf hdata
  obtain ⟨hgot, hkept⟩ := writePart_bytes wbuff hm.sound
    (by rw [hptr, hsize]; exact hroom) hk hat hbuf hdata hfit
  have hown := Geometry.owns_sectorNo (sector_lt hk)
  have hheld : (copyIn f₁ wbuff w).Held g (chains₁ i) :=
    ⟨hstart, by show f₁.fsize ≤ _; omega, Or.inr (hat ▸ hown), fun hzero =>
      absurd (hat.symm.trans hzero) (hm.sound.owned hown).2.2.1⟩
  have hready : ((copyIn f₁ wbuff w).advance w).Ready g v₁ (chains₁ i) :=
    ready_within hheld ⟨hheld.placed, hheld.lost, fun h => by cases h⟩ hk hat hclust (by omega) hfit
  rw [hptr] at hgot hkept
  rw [hsize] at hkept
  refine .went (by omega) ⟨hm, ?_, hready.toHeld, hgot, hkept⟩ hready
  show (File.advance (copyIn _ _ _) _) = _
  rw [hsame]
  rfl

theorem byte_clean (hclean : f.dirty = false) (chain : List Nat) (p : Nat) :
    f.byte g v chain p = byteIn (v.disk.data (g.sectorNo chain (p / 512))) p := by
  unfold File.byte File.sector
  rw [if_neg fun h => Bool.noConfusion (hclean.symm.trans h.1)]

/-- The sector at a pointer to the start of one, by the current cluster. -/
theorem sect_at (hs : Sound g v chains) (hk : f.fptr / 512 / g.csize < (chains i).length)
    (hclust : f.clust = (chains i).getD (f.fptr / 512 / g.csize) 0) :
    clust2sect g f.clust ≠ 0 ∧
      clust2sect g f.clust + f.csect g = g.sectorNo (chains i) (f.fptr / 512) := by
  rw [csect_eq, Geometry.sectorNo, ← hclust]
  refine ⟨?_, rfl⟩
  rw [List.getD_eq_getElem _ _ hk] at hclust
  have hin : g.InCluster (chains i)[f.fptr / 512 / g.csize] (clust2sect g f.clust) := by
    rw [hclust]
    exact ⟨Nat.le_refl _, Nat.lt_add_of_pos_right g.csize_pos⟩
  exact (hin.offTable (hs.isCluster (i := i) (List.getElem_mem hk))).2.2.1

section prepared

variable {v₁ : Volume} {chains₁ : ι → List Nat} {f₁ : File}

theorem Prepared.sect_eq (hp : Prepared g i v chains f v₁ chains₁ f₁) :
    clust2sect g f₁.clust ≠ 0 ∧
      clust2sect g f₁.clust + f₁.csect g = g.sectorNo (chains₁ i) (f.fptr / 512) := by
  have hptr : f₁.fptr = f.fptr := by rw [hp.same]
  rw [← hptr]
  exact sect_at hp.moved.sound (hptr ▸ hp.within) (hptr ▸ hp.cluster)

theorem Prepared.rest (hp : Prepared g i v chains f v₁ chains₁ f₁) :
    f₁.fptr = f.fptr ∧ f₁.fsize = f.fsize ∧ f₁.dirty = false := by
  refine ⟨?_, ?_, ?_⟩ <;> rw [hp.same]

/-- Whole sectors, past the buffer. -/
theorem Prepared.whole (hp : Prepared g i v chains f v₁ chains₁ f₁)
    (hf : f.Ready g v (chains i)) (hcut : f.fptr % 512 = 0) {cc : Nat} (hpos : 0 < cc)
    (hcc : f.fptr / 512 % g.csize + cc ≤ g.csize) (hfit : 512 * cc ≤ wbuff.length) :
    Round g i v chains f wbuff
      (match writeSectors v₁ f₁ wbuff (g.sectorNo (chains₁ i) (f.fptr / 512)) cc with
        | (flow, v, f') => (flow, 512 * cc, v, f')) := by
  have hlen := hp.moved.length_le
  have hreach := room_of_length hlen hf.reach
  have hroom := room_of_length hlen hf.room
  have hk := sector_lt hp.within
  obtain ⟨hptr, hsize, hclean⟩ := hp.rest
  obtain ⟨v₂, hm, houtside, ⟨f₂, hw, hsame, hbuf, hinside⟩ | ⟨hbad, hw⟩⟩ :=
    writeSectors_cases wbuff hp.moved.sound hp.buffered hclean hp.within hcc
  · rw [hw]
    have hclean₂ : f₂.dirty = false := by
      rw [hsame]
      exact hclean
    have hptr₂ : f₂.fptr = f.fptr := by
      rw [hsame]
      exact hptr
    have hheld : f₂.Held g (chains₁ i) := by
      refine ⟨?_, ?_, hbuf.placed, hbuf.lost⟩
      · rw [hsame]
        exact hp.start
      · rw [hsame]
        show f₁.fsize ≤ _
        rw [hsize]
        exact hroom
    have hready : (f₂.advance (512 * cc)).Ready g v₂ (chains₁ i) := by
      refine ready_whole hheld hbuf ?_ ?_ ?_ hpos ?_
      · rw [hptr₂]; exact hcut
      · rw [hptr₂]; exact hp.within
      · rw [hptr₂, hsame]; exact hp.cluster
      · rw [hptr₂]; exact hcc
    refine .went hfit ⟨hp.moved.trans hm, ?_, hready.toHeld, fun p hlow hhigh => ?_,
      fun p hlt hout => ?_⟩ hready
    · show f₂.advance (512 * cc) = _
      rw [hsame]
      show (File.advance _ _) = _
      rw [hp.same]
      rfl
    · show f₂.byte g v₂ (chains₁ i) p = _
      have hsect : p / 512 = f.fptr / 512 + (p / 512 - f.fptr / 512) := by omega
      rw [byte_clean hclean₂, hsect, hinside _ (by omega), byteIn_sectorsOf]
      congr 1
      omega
    · show f₂.byte g v₂ (chains₁ i) p = _
      rw [byte_clean hclean₂, houtside _ (by omega) (by omega)]
      exact hp.bytes p hlt
  · rw [hw]
    refine .aborted (by decide) ⟨hp.moved.trans hm, ?_, ⟨hp.start, ?_, hp.buffered.placed,
      hp.buffered.lost⟩, fun p hlow hhigh => absurd hhigh (by omega), fun p hlt hout => ?_⟩
      fun hr => absurd (hr.after hp.moved.after) hbad
    · rw [hp.same]
      rfl
    · rw [hsize]
      exact hroom
    · rw [byte_clean hclean, houtside _ (by omega) (by omega)]
      exact hp.bytes p hlt

/-- Less than a sector, through the buffer. -/
theorem Prepared.part (hp : Prepared g i v chains f v₁ chains₁ f₁)
    (hf : f.Ready g v (chains i)) (hcut : f.fptr % 512 = 0) (hmore : wbuff ≠ []) :
    Round g i v chains f wbuff (Flow.andThen 0
      (fillBuffer v₁ f₁ (g.sectorNo (chains₁ i) (f.fptr / 512))) fun v f =>
        writePart v f wbuff) := by
  have hlen := hp.moved.length_le
  have hreach := room_of_length hlen hf.reach
  have hroom := room_of_length hlen hf.room
  have hown := Geometry.owns_sectorNo (sector_lt hp.within)
  obtain ⟨hptr, hsize, hclean⟩ := hp.rest
  obtain ⟨v₂, hm, hdata, ⟨buf, hfill, hread⟩ | ⟨hbad, buf, hfill⟩⟩ :=
    fillBuffer_cases hp.moved.sound hp.buffered hclean hown
  · rw [hfill]
    refine writePart_round (hp.moved.trans hm) (by omega) hmore ?_ hp.start hp.within hp.cluster
      rfl (fun p hlt hsect => ?_) fun p hlt hsect => ?_
    · rw [hp.same]
    · show byteIn buf p = _
      rw [← hp.bytes p hlt, hsect, hread (by omega)]
    · rw [hdata]
      exact hp.bytes p hlt
  · rw [hfill]
    refine .aborted (by decide) ⟨hp.moved.trans hm, ?_, ⟨hp.start, ?_, hp.buffered.placed,
      hp.buffered.lost⟩, fun p hlow hhigh => absurd hhigh (by omega), fun p hlt hout => ?_⟩
      fun hr => absurd (hr.after hp.moved.after) hbad
    · rw [hp.same]
      rfl
    · rw [hsize]
      exact hroom
    · have hclean' : ({ f₁ with buf := buf } : File).dirty = false := hclean
      rw [byte_clean hclean', hdata]
      exact hp.bytes p hlt

end prepared

/-- What the file holds goes along while only the table is changed. -/
theorem carried_sectors (hs : Sound g v chains) (hm : Moved g i v chains v' chains')
    (hview : ∀ s, g.home s → ¬g.InTable s → v'.view s = v.view s)
    (hf : f.Ready g v (chains i)) :
    Buffered g v' f (chains' i) ∧ ∀ k, k < (chains i).length * g.csize →
      f.sector g v' (chains' i) k = f.sector g v (chains i) k := by
  have hdata : ∀ s, g.Owns (chains i) s → v'.disk.data s = v.disk.data s := by
    intro s hown
    obtain ⟨hhome, hoff, -⟩ := hs.owned hown
    exact hs.data_eq hm.sound hown (hm.owns hown) (hview s hhome hoff)
  obtain ⟨l, hl⟩ := hm.more
  refine ⟨⟨hf.placed.imp_right hm.owns, hf.lost, fun hclean hsome => ?_⟩, fun k hk => ?_⟩
  · rw [hdata _ (hf.placed.resolve_left hsome)]
    exact hf.clean hclean hsome
  · unfold File.sector
    rw [hl, Geometry.sectorNo_append hk, hdata _ (Geometry.owns_sectorNo hk)]

theorem carried (hs : Sound g v chains) (hm : Moved g i v chains v' chains')
    (hview : ∀ s, g.home s → ¬g.InTable s → v'.view s = v.view s)
    (hf : f.Ready g v (chains i)) :
    Buffered g v' f (chains' i) ∧
      ∀ p, p < max f.fsize f.fptr → f.byte g v' (chains' i) p = f.byte g v (chains i) p := by
  obtain ⟨hbuf, hsector⟩ := carried_sectors hs hm hview hf
  refine ⟨hbuf, fun p hp => congrArg (byteIn · p) (hsector _ ?_)⟩
  have := hf.room
  have := hf.reach
  omega

/-- A file with its pointer inside of a sector has that sector in the buffer. -/
theorem byte_here (hs : Sound g v chains) (hb : Buffered g v f (chains i))
    (hk : f.fptr / 512 < (chains i).length * g.csize)
    (hat : f.dsect = g.sectorNo (chains i) (f.fptr / 512)) {p : Nat}
    (hp : p / 512 = f.fptr / 512) : byteIn f.buf p = f.byte g v (chains i) p := by
  unfold File.byte File.sector
  rw [hp]
  by_cases hdirty : f.dirty = true
  · rw [if_pos ⟨hdirty, hat⟩]
  · have hsome : f.dsect ≠ 0 := by
      rw [hat]
      exact (hs.owned (Geometry.owns_sectorNo hk)).2.2.1
    rw [if_neg fun h => hdirty h.1, ← hat, hb.clean (Bool.eq_false_iff.mpr hdirty) hsome]

theorem writeRound_round [DecidableEq ι] (hs : Sound g v chains) (hw : Whole g v)
    (hf : f.Ready g v (chains i)) (hmore : wbuff ≠ []) :
    Round g i v chains f wbuff (writeRound g v f wbuff) := by
  unfold writeRound
  by_cases hcut : f.fptr % 512 = 0
  swap
  · -- the pointer is inside of a sector, which is in the buffer
    rw [if_neg hcut]
    have hzero : f.fptr ≠ 0 := by omega
    have hsect : (f.fptr - 1) / 512 = f.fptr / 512 := by omega
    have hk : f.fptr / 512 / g.csize < (chains i).length := by
      rw [← hsect]
      exact cluster_lt (by have := hf.reach; omega)
    have hat := hf.here hcut
    refine writePart_round (Moved.refl hs) (Nat.max_le.mpr ⟨hf.room, hf.reach⟩) hmore rfl
      hf.start hk (hsect ▸ hf.current hzero) hat
      (fun p _ hp => byte_here hs hf.buffered (sector_lt hk) hat hp) fun p hp hne => ?_
    have hlt : p / 512 < (chains i).length * g.csize := by
      have := hf.room
      have := hf.reach
      omega
    have hother : ¬f.dsect = g.sectorNo (chains i) (p / 512) := by
      rw [hat]
      exact fun h => hne (hs.sectorNo_inj hlt (sector_lt hk) h.symm)
    unfold File.byte File.sector
    rw [if_neg fun h => hother h.2]
  rw [if_pos hcut]
  obtain ⟨v₁, chains₁, hm, hview, ⟨f₁, henter, hf₁⟩ | ⟨rfl, henter, hused⟩ |
    ⟨rfl, res, henter, hres, hwhy⟩⟩ := enterCluster_cases hs hw hf hcut
  · obtain ⟨hbuf, hbytes⟩ := carried hs hm hview hf
    have hlen := hm.length_le
    have hbuf₁ : Buffered g v₁ f₁ (chains₁ i) := by
      rw [hf₁.same]
      exact ⟨hbuf.placed, hbuf.lost, hbuf.clean⟩
    have hbytes₁ : ∀ p, p < max f.fsize f.fptr →
        f₁.byte g v₁ (chains₁ i) p = f.byte g v (chains i) p := by
      rw [hf₁.same]
      exact hbytes
    rw [henter]
    show Round g i v chains f wbuff (Flow.andThen 0 (writeBack v₁ f₁) _)
    obtain ⟨v₂, hm₂, -, ⟨hwb, hclean, hdata⟩ | ⟨hbad, hwb, hdata⟩⟩ :=
      writeBack_cases hm.sound hbuf₁.placed hbuf₁.lost
    · rw [hwb]
      show Round g i v chains f wbuff (writeSector g v₂ _ wbuff)
      have hp : Prepared g i v chains f v₂ chains₁ { f₁ with dirty := false } := by
        refine ⟨hm.trans hm₂, ?_, hf₁.start, hf₁.within, hf₁.cluster,
          ⟨hbuf₁.placed, fun _ => rfl, fun _ => hclean hbuf₁.clean⟩, fun p hp => ?_⟩
        · rw [hf₁.same]
        · rw [hdata]
          exact hbytes₁ p hp
      obtain ⟨hzero, hsect⟩ := hp.sect_eq
      unfold writeSector
      rw [if_neg hzero, hsect]
      by_cases hwhole : wbuff.length / 512 ≠ 0
      · rw [if_pos hwhole]
        have hlt := csect_lt g ({ f₁ with dirty := false } : File)
        have hcsect : ({ f₁ with dirty := false } : File).csect g = f.fptr / 512 % g.csize := by
          rw [csect_eq, hp.rest.1]
        refine hp.whole hf hcut (wholeSectors_pos hwhole) ?_ ?_
        · unfold wholeSectors
          split <;> omega
        · unfold wholeSectors
          split <;> omega
      · rw [if_neg hwhole]
        exact hp.part hf hcut hmore
    · rw [hwb]
      refine .aborted (by decide) ⟨hm.trans hm₂, ?_, ⟨hf₁.start, ?_, hbuf₁.placed, hbuf₁.lost⟩,
        fun p hlow hhigh => absurd hhigh (by omega), fun p hp _ => ?_⟩
        fun hr => absurd (hr.after hm.after) hbad
      · rw [hf₁.same]
        rfl
      · rw [hf₁.same]
        exact room_of_length hlen hf.room
      · unfold File.byte
        rw [hdata]
        exact hbytes₁ p hp
  · obtain ⟨hbuf, hbytes⟩ := carried hs hm hview hf
    rw [henter]
    exact .full ⟨hm, rfl, hf.toHeld, fun p hlow hhigh => absurd hhigh (by omega),
      fun p hp _ => hbytes p hp⟩ ⟨hf.toHeld, hf.reach, hf.current, hf.here, hbuf.clean⟩ hused
  · obtain ⟨hbuf, hbytes⟩ := carried hs hm hview hf
    rw [henter]
    exact .aborted hres ⟨hm, rfl, hf.toHeld, fun p hlow hhigh => absurd hhigh (by omega),
      fun p hp _ => hbytes p hp⟩ hwhy

/-! ## The loop -/

theorem Wrote.nothing (hm : Moved g i v chains v chains) (hf : f.Held g (chains i)) :
    Wrote g i v chains f wbuff 0 0 v chains f :=
  ⟨hm, rfl, hf, fun _ hlow hhigh => absurd hhigh (by omega), fun _ _ _ => rfl⟩

theorem Wrote.fptr (h : Wrote g i v chains f wbuff n m v' chains' f') :
    f'.fptr = f.fptr + n ∧ f'.fsize = f.fsize := by
  constructor <;> rw [h.same]

theorem Wrote.trans {n' m' : Nat} (h : Wrote g i v chains f wbuff n n v' chains' f')
    (h' : Wrote g i v' chains' f' (wbuff.drop n) n' m' v'' chains'' f'') :
    Wrote g i v chains f wbuff (n + n') (n + m') v'' chains'' f'' := by
  obtain ⟨hptr, hsize⟩ := h.fptr
  have hgot := h'.got
  have hkept := h'.kept
  rw [hptr] at hgot
  rw [hptr, hsize] at hkept
  refine ⟨h.moved.trans h'.moved, ?_, h'.held, fun p hlow hhigh => ?_, fun p hp hout => ?_⟩
  · rw [h'.same, h.same, Nat.add_assoc]
  · by_cases hfirst : p < f.fptr + n
    · rw [hkept p (by omega) (Or.inl hfirst)]
      exact h.got p hlow hfirst
    · rw [hgot p (by omega) (by omega), List.getD_eq_getElem?_getD, List.getElem?_drop,
        List.getD_eq_getElem?_getD]
      congr 2
      omega
  · rw [hkept p (by omega) (by omega)]
    exact h.kept p hp (by omega)

/-- What the loop comes to. -/
inductive Looped (g : Geometry) (i : ι) (v : Volume) (chains : ι → List Nat) (f : File)
    (wbuff : List UInt8) : Flow × Nat × Volume × File → Prop
  | done {v' : Volume} {chains' : ι → List Nat} {f' : File}
      (hwrote : Wrote g i v chains f wbuff wbuff.length wbuff.length v' chains' f')
      (hready : f'.Ready g v' (chains' i)) :
      Looped g i v chains f wbuff (.go, wbuff.length, v', f')
  | full {n : Nat} {v' : Volume} {chains' : ι → List Nat} {f' : File} (hn : n ≤ wbuff.length)
      (hwrote : Wrote g i v chains f wbuff n n v' chains' f')
      (hready : f'.Ready g v' (chains' i)) (hused : ∀ c, g.links v' c ≠ .free) :
      Looped g i v chains f wbuff (.full, n, v', f')
  | aborted {res : FResult} {n : Nat} {v' : Volume} {chains' : ι → List Nat} {f' : File}
      (hres : res ≠ .ok) (hn : n < wbuff.length)
      (hwrote : Wrote g i v chains f wbuff n wbuff.length v' chains' f')
      (hwhy : v.disk.Reliable → Damaged g v) :
      Looped g i v chains f wbuff (.abort res, n, v', f')

/-- One more round before the loop. -/
theorem Looped.cons {out : Flow × Nat × Volume × File} (hn : n ≤ wbuff.length)
    (h : Wrote g i v chains f wbuff n n v' chains' f')
    (h' : Looped g i v' chains' f' (wbuff.drop n) out) :
    Looped g i v chains f wbuff (out.1, n + out.2.1, out.2.2) := by
  have hlen : n + (wbuff.drop n).length = wbuff.length := by
    rw [List.length_drop]
    omega
  cases h' with
  | done hwrote hready =>
      have hall := h.trans hwrote
      rw [hlen] at hall
      show Looped g i v chains f wbuff (.go, n + (wbuff.drop n).length, _, _)
      rw [hlen]
      exact .done hall hready
  | @full n' v'' chains'' f'' hn' hwrote hready hused =>
      have hfit : n + n' ≤ wbuff.length := by omega
      exact .full hfit (h.trans hwrote) hready hused
  | @aborted res n' v'' chains'' f'' hres hn' hwrote hwhy =>
      have hfit : n + n' < wbuff.length := by omega
      have hall := h.trans hwrote
      rw [hlen] at hall
      exact .aborted hres hfit hall fun hr => h.moved.intact (hwhy (hr.after h.moved.after))

theorem writeLoop_go {wcnt : Nat} (hmore : wbuff ≠ [])
    (h : writeRound g v f wbuff = (.go, wcnt, v', f')) :
    writeLoop g v f wbuff =
      ((writeLoop g v' (f'.advance wcnt) (wbuff.drop wcnt)).1,
        wcnt + (writeLoop g v' (f'.advance wcnt) (wbuff.drop wcnt)).2.1,
        (writeLoop g v' (f'.advance wcnt) (wbuff.drop wcnt)).2.2) := by
  rw [writeLoop, dif_neg hmore]
  split
  · next heq =>
      cases h.symm.trans heq
      rfl
  · next hstop heq =>
      cases h.symm.trans heq
      exact absurd rfl hstop

theorem writeLoop_stop {flow : Flow} (hmore : wbuff ≠ []) (hstop : flow ≠ .go)
    (h : writeRound g v f wbuff = (flow, n, v', f')) :
    writeLoop g v f wbuff = (flow, 0, v', f') := by
  rw [writeLoop, dif_neg hmore]
  split
  · next heq =>
      cases h.symm.trans heq
      exact absurd rfl hstop
  · next heq =>
      cases h.symm.trans heq
      rfl

theorem writeLoop_looped [DecidableEq ι] (hs : Sound g v chains) (hw : Whole g v)
    (hf : f.Ready g v (chains i)) (wbuff : List UInt8) :
    Looped g i v chains f wbuff (writeLoop g v f wbuff) := by
  induction v, f, wbuff using writeLoop.induct g generalizing chains with
  | case1 v f =>
      rw [writeLoop, dif_pos rfl]
      exact .done (.nothing (Moved.refl hs) hf.toHeld) hf
  | case2 v f wbuff hmore wcnt v' f' hround ih =>
      have h := writeRound_round hs hw hf hmore
      rw [hround] at h
      rw [writeLoop_go hmore hround]
      cases h with
      | went hn hwrote hready =>
          exact Looped.cons hn hwrote
            (ih hwrote.moved.sound (hw.after hwrote.moved.after) hready)
  | case3 v f wbuff hmore flow n v' f' hstop hround =>
      have h := writeRound_round hs hw hf hmore
      rw [hround] at h
      rw [writeLoop_stop hmore hstop hround]
      cases h with
      | went => exact absurd rfl hstop
      | full hwrote hready hused => exact .full (Nat.zero_le _) hwrote hready hused
      | aborted hres hwrote hwhy =>
          exact .aborted hres (List.length_pos_iff.mpr hmore) hwrote hwhy

/-! ## `f_write` -/

/-- What `f_write` comes to with a file that is open for it. -/
inductive Written (g : Geometry) (i : ι) (v : Volume) (chains : ι → List Nat) (f : File)
    (buff : List UInt8) : FResult × Nat × Volume × File → Prop
  | wrote {n : Nat} {v' : Volume} {chains' : ι → List Nat} {f' : File} (hn : n ≤ buff.length)
      (hwrote : Wrote g i v chains f buff n n v' chains' f') (hready : f'.Ready g v' (chains' i))
      (hwhy : n = buff.length ∨ 2 ^ 32 ≤ f.fptr + buff.length ∨ ∀ c, g.links v' c ≠ .free)
      (hbound : f.fptr + n < 2 ^ 32) :
      Written g i v chains f buff
        (.ok, n, v', { f' with fsize := max f'.fsize f'.fptr, changed := true })
  | aborted {res : FResult} {n : Nat} {v' : Volume} {chains' : ι → List Nat} {f' : File}
      (hres : res ≠ .ok) (hn : n < buff.length)
      (hwrote : Wrote g i v chains f buff n buff.length v' chains' f')
      (hwhy : v.disk.Reliable → Damaged g v) :
      Written g i v chains f buff (res, n, v', { f' with err := res })

theorem fWrite_written [DecidableEq ι] (hs : Sound g v chains) (hw : Whole g v)
    (hf : f.Ready g v (chains i))
    (hopen : f.attached = true ∧ f.err = .ok ∧ f.canWrite = true) (hptr : f.fptr < 2 ^ 32)
    {buff : List UInt8} (hlen : buff.length < 2 ^ 32) :
    Written g i v chains f buff (fWrite g v f buff) := by
  unfold fWrite
  rw [if_neg (by simp [hopen]), if_neg (by simp [hopen]), if_neg (by simp [hopen])]
  by_cases hwrap : (f.fptr + buff.length) % 2 ^ 32 < f.fptr
  · rw [if_pos hwrap, writeLoop, dif_pos rfl]
    exact .wrote (Nat.zero_le _) (.nothing (Moved.refl hs) hf.toHeld) hf
      (Or.inr (Or.inl (by omega))) hptr
  · rw [if_neg hwrap]
    have hfit : f.fptr + buff.length < 2 ^ 32 := by omega
    have h := writeLoop_looped hs hw hf buff
    generalize writeLoop g v f buff = out at h
    cases h with
    | done hwrote hready => exact .wrote (Nat.le_refl _) hwrote hready (Or.inl rfl) hfit
    | full hn hwrote hready hused =>
        exact .wrote hn hwrote hready (Or.inr (Or.inr hused)) (by omega)
    | aborted hres hn hwrote hwhy => exact .aborted hres hn hwrote hwhy

end Fat
end ImuFirmware
