/-
What the parts of `f_write` do to the volume.

A part of a transfer on one file changes the volume as `Moved` says: the file's chain
grows at the end, the sectors of no one else change, and no cluster is freed.  This holds
whichever transfers fail, and composes.
-/
import ImuFirmware.Fat.File

namespace ImuFirmware
namespace Fat

open Storage

variable {ι : Type}

/-- A cluster that holds the data of a file, or may come to. -/
def ForData (g : Geometry) (v : Volume) (chains : ι → List Nat) (c : Nat) : Prop :=
  g.links v c = .free ∨ ∃ i, c ∈ chains i

/-- Some entry of a cluster is none. -/
def Damaged (g : Geometry) (v : Volume) : Prop := ∃ c, g.IsCluster c ∧ g.links v c = .bad

/-- A volume with the chains of its files. -/
structure Sound (g : Geometry) (v : Volume) (chains : ι → List Nat) : Prop where
  coherent : g.Coherent v
  apart : Apart (g.links v) chains
  off : ∀ c, ForData g v chains c → ¬g.InCluster c v.winsect

/-- What a part of a transfer on file `i` may do to a volume. -/
structure Moved (g : Geometry) (i : ι) (v : Volume) (chains : ι → List Nat) (v' : Volume)
    (chains' : ι → List Nat) : Prop where
  sound : Sound g v' chains'
  after : v.disk.After v'.disk
  others : ∀ j, j ≠ i → chains' j = chains j
  more : ∃ l, chains' i = chains i ++ l
  fewer : ∀ c, ForData g v' chains' c → ForData g v chains c
  frame : ∀ s, g.home s → ¬g.InTable s → ¬g.Owns (chains' i) s → v'.view s = v.view s
  mirrored : v.disk.Reliable → g.Mirrored v → g.Mirrored v'
  intact : Damaged g v' → Damaged g v

variable {g : Geometry} {i : ι} {v v' v'' : Volume} {chains chains' chains'' : ι → List Nat}
  {f f' f'' : File} {c s n m : Nat} {wbuff : List UInt8}

theorem ForData.isCluster (ha : Apart (g.links v) chains) (hc : ForData g v chains c) :
    g.IsCluster c := by
  obtain hfree | ⟨j, hj⟩ := hc
  · exact (Geometry.links_eq_free_iff.mp hfree).1
  · exact isCluster_of_linked (ha.linked j) hj

theorem ForData.of_links (h : g.links v' = g.links v) (hc : ForData g v' chains c) :
    ForData g v chains c := by
  unfold ForData at hc
  rw [h] at hc
  exact hc

theorem Sound.isCluster (h : Sound g v chains) (hc : c ∈ chains i) : g.IsCluster c :=
  isCluster_of_linked (h.apart.linked i) hc

/-- A drive whose table keeps the chains apart, with nothing in the window. -/
theorem mounted_sound {d : Drive Sector} (ha : Apart (g.links (mounted d)) chains) :
    Sound g (mounted d) chains := by
  refine ⟨g.mounted_coherent d, ha, fun c hc hin => ?_⟩
  exact Nat.lt_irrefl _ (hin.offTable (hc.isCluster ha)).1.1

theorem blank_sound : Sound floppy (mounted blank) fun _ : ι => [] :=
  mounted_sound (.empty _)

/-- The sectors of a file lie behind the tables, and not in the window. -/
theorem Sound.owned (h : Sound g v chains) (hs : g.Owns (chains i) s) :
    g.home s ∧ ¬g.InTable s ∧ s ≠ 0 ∧ s < 2 ^ 32 ∧ s ≠ v.winsect := by
  obtain ⟨c, hc, hin⟩ := hs
  obtain ⟨hhome, hoff, hzero, hlt⟩ := hin.offTable (h.isCluster hc)
  exact ⟨hhome, hoff, hzero, hlt, fun he => h.off c (Or.inr ⟨i, hc⟩) (he ▸ hin)⟩

theorem Moved.refl (h : Sound g v chains) : Moved g i v chains v chains where
  sound := h
  after := Drive.After.refl _
  others _ _ := rfl
  more := ⟨[], (List.append_nil _).symm⟩
  fewer _ hc := hc
  frame _ _ _ _ := rfl
  mirrored _ hm := hm
  intact hd := hd

theorem Moved.owns (h : Moved g i v chains v' chains') (hs : g.Owns (chains i) s) :
    g.Owns (chains' i) s := by
  obtain ⟨l, hl⟩ := h.more
  rw [hl]
  exact hs.append

theorem Moved.trans (h : Moved g i v chains v' chains') (h' : Moved g i v' chains' v'' chains'') :
    Moved g i v chains v'' chains'' where
  sound := h'.sound
  after := h.after.trans h'.after
  others j hj := (h'.others j hj).trans (h.others j hj)
  more := by
    obtain ⟨l, hl⟩ := h.more
    obtain ⟨l', hl'⟩ := h'.more
    exact ⟨l ++ l', by rw [hl', hl, List.append_assoc]⟩
  fewer c hc := h.fewer c (h'.fewer c hc)
  frame s hs hst hown := (h'.frame s hs hst hown).trans
    (h.frame s hs hst fun hs => hown (h'.owns hs))
  mirrored hr hm := h'.mirrored (hr.after h.after) (h.mirrored hr hm)
  intact hd := h.intact (h'.intact hd)

/-! ## Transfers of data -/

theorem links_of_table (h : ∀ b, g.InTable b → v'.view b = v.view b) :
    g.links v' = g.links v := by
  funext c
  unfold Geometry.links
  split
  · next hc =>
      rw [Geometry.entries_congr hc fun i hi => ?_]
      unfold Geometry.bytes
      rw [h _ (Geometry.inTable_of_byte hi)]
  · rfl

section disk

variable {d : Drive Sector}

theorem view_disk (hd : ∀ s, ¬g.Owns (chains i) s → d.data s = v.disk.data s)
    (hs : ¬g.Owns (chains i) s) : ({ v with disk := d } : Volume).view s = v.view s := by
  by_cases hself : s = v.winsect
  · subst hself
    exact (Window.view_self _).trans (Window.view_self v.toWindow).symm
  · rw [Window.view_of_ne hself, ← hd s hs]
    exact Window.view_of_ne hself

theorem links_disk (h : Sound g v chains)
    (hd : ∀ s, ¬g.Owns (chains i) s → d.data s = v.disk.data s) :
    g.links { v with disk := d } = g.links v :=
  links_of_table fun _ hb => view_disk hd fun hown => (h.owned hown).2.1 hb

/-- A transfer that changes no more than sectors of the file. -/
theorem moved_disk (h : Sound g v chains) (hafter : v.disk.After d)
    (hd : ∀ s, ¬g.Owns (chains i) s → d.data s = v.disk.data s) :
    Moved g i v chains { v with disk := d } chains := by
  have htable : ∀ s, g.InTable s → ¬g.Owns (chains i) s := fun s hs hown =>
    (h.owned hown).2.1 hs
  have hlinks := links_disk h hd
  have hwin : ¬g.Owns (chains i) v.winsect := fun hown => (h.owned hown).2.2.2.2 rfl
  refine ⟨⟨⟨h.coherent.placed, fun hclean hsome => ?_, h.coherent.lost⟩, ?_, ?_⟩,
    hafter, fun _ _ => rfl, ⟨[], (List.append_nil _).symm⟩, fun c hc => ?_,
    fun s _ _ hs => view_disk hd hs, fun _ hm b hb hsame m hmem => ?_, fun hbad => ?_⟩
  · exact (hd _ hwin).trans (h.coherent.clean hclean hsome)
  · rw [hlinks]
    exact h.apart
  · exact fun c hc => h.off c (hc.of_links hlinks)
  · exact hc.of_links hlinks
  · obtain ⟨htwo, hbt, rfl⟩ := g.mem_mirrors_iff.mp hmem
    have hcopy : ¬g.Owns (chains i) (b + g.fsize) := by
      intro hown
      refine (h.owned hown).1.2.1 ?_
      have := hbt.1
      have := hbt.2
      rw [htwo]
      omega
    show d.data _ = d.data _
    rw [hd _ hcopy, hd _ (htable b hbt)]
    exact hm b hb hsame _ hmem
  · unfold Damaged at hbad
    rw [hlinks] at hbad
    exact hbad

end disk

theorem Sound.sectorNo_inj (h : Sound g v chains) {j k : Nat}
    (hj : j < (chains i).length * g.csize) (hk : k < (chains i).length * g.csize)
    (he : g.sectorNo (chains i) j = g.sectorNo (chains i) k) : j = k :=
  Geometry.sectorNo_inj (h.apart.linked i).nodup (fun _ hc => h.isCluster hc) hj hk he

/-! ## The buffer -/

/-- Sectors of a file that a reader finds unchanged are unchanged on the drive. -/
theorem Sound.data_eq (hs : Sound g v chains) (hs' : Sound g v' chains')
    (hown : g.Owns (chains i) s) (hown' : g.Owns (chains' i) s) (h : v'.view s = v.view s) :
    v'.disk.data s = v.disk.data s := by
  rw [← Window.view_of_ne (hs'.owned hown').2.2.2.2, h]
  exact Window.view_of_ne (hs.owned hown).2.2.2.2

/-- The sectors of another file stay. -/
theorem Moved.other (hs : Sound g v chains) (h : Moved g i v chains v' chains') (hj : j ≠ i)
    {s : Nat} (hown : g.Owns (chains j) s) : v'.disk.data s = v.disk.data s := by
  obtain ⟨hhome, hoff, -⟩ := hs.owned hown
  have hown' : g.Owns (chains' j) s := by
    rw [h.others j hj]
    exact hown
  refine hs.data_eq h.sound hown hown' (h.frame s hhome hoff ?_)
  rintro ⟨b, hb, hbin⟩
  obtain ⟨c, hc, hin⟩ := hown'
  have hsame := hbin.unique (h.sound.isCluster hb) (h.sound.isCluster hc) hin
  exact h.sound.apart.disjoint i j hj.symm b hb (hsame ▸ hc)

theorem Moved.rest (hs : Sound g v chains) (h : Moved g i v chains v' chains') :
    ∀ j, j ≠ i → chains' j = chains j ∧
      ∀ s, g.Owns (chains j) s → v'.disk.data s = v.disk.data s := fun j hj =>
  ⟨h.others j hj, fun _ hown => h.other hs hj hown⟩

/-- The buffer is nowhere, or on a sector of the file, with which it agrees unless it is to
be written there. -/
structure Buffered (g : Geometry) (v : Volume) (f : File) (chain : List Nat) : Prop where
  placed : f.dsect = 0 ∨ g.Owns chain f.dsect
  lost : f.dsect = 0 → f.dirty = false
  clean : f.dirty = false → f.dsect ≠ 0 → v.disk.data f.dsect = f.buf

/-- After the write-back the drive holds what the file does. -/
theorem writeBack_cases (hs : Sound g v chains) (hplaced : f.dsect = 0 ∨ g.Owns (chains i) f.dsect)
    (hlost : f.dsect = 0 → f.dirty = false) :
    ∃ v', Moved g i v chains v' chains ∧ g.links v' = g.links v ∧
      ((writeBack v f = (.go, v', { f with dirty := false }) ∧
          ((f.dirty = false → f.dsect ≠ 0 → v.disk.data f.dsect = f.buf) →
            f.dsect ≠ 0 → v'.disk.data f.dsect = f.buf) ∧
          ∀ k, v'.disk.data (g.sectorNo (chains i) k) = f.sector g v (chains i) k) ∨
        (¬v.disk.Reliable ∧ writeBack v f = (.abort .diskErr, v', f) ∧
          ∀ k, f.sector g v' (chains i) k = f.sector g v (chains i) k)) := by
  unfold writeBack
  by_cases hdirty : f.dirty = true
  swap
  · have hfalse := Bool.eq_false_iff.mpr hdirty
    refine ⟨v, Moved.refl hs, rfl, Or.inl ⟨?_, fun hclean => hclean hfalse, fun k => ?_⟩⟩
    · rw [if_neg hdirty, ← hfalse]
    · exact (if_neg fun h => hdirty h.1).symm
  rw [if_pos hdirty]
  have hown : g.Owns (chains i) f.dsect := hplaced.resolve_left fun h => by
    rw [hlost h] at hdirty
    cases hdirty
  have hother : ∀ (buf : Nat → Sector) s, s ≠ f.dsect →
      (v.disk.put buf f.dsect 1).data s = v.disk.data s := fun buf s hne =>
    Drive.put_data_one_of_ne hne
  have hout : ∀ (buf : Nat → Sector) s, ¬g.Owns (chains i) s →
      (v.disk.put buf f.dsect 1).data s = v.disk.data s := fun buf s hs =>
    hother buf s fun he => hs (he ▸ hown)
  obtain hw | ⟨hbad, junk, hw⟩ := v.disk.write_cases (fun _ => f.buf) f.dsect 1
  · refine ⟨_, moved_disk hs (Drive.after_put ..) (hout fun _ => f.buf),
      links_disk hs (hout fun _ => f.buf), Or.inl ⟨by rw [hw], fun _ _ =>
      Drive.put_data_one v.disk (fun _ => f.buf) f.dsect, fun k => ?_⟩⟩
    unfold File.sector
    by_cases hk : f.dsect = g.sectorNo (chains i) k
    · rw [if_pos ⟨hdirty, hk⟩, ← hk]
      exact Drive.put_data_one v.disk (fun _ => f.buf) f.dsect
    · rw [if_neg fun h => hk h.2]
      exact hother (fun _ => f.buf) _ (Ne.symm hk)
  · refine ⟨_, moved_disk hs (Drive.after_put ..) (hout junk), links_disk hs (hout junk),
      Or.inr ⟨hbad, by rw [hw], fun k => ?_⟩⟩
    unfold File.sector
    by_cases hk : f.dsect = g.sectorNo (chains i) k
    · rw [if_pos ⟨hdirty, hk⟩, if_pos ⟨hdirty, hk⟩]
    · rw [if_neg fun h => hk h.2, if_neg fun h => hk h.2]
      exact hother junk _ (Ne.symm hk)

theorem cluster_index {k j : Nat} (h : k % g.csize + j < g.csize) :
    (k + j) / g.csize = k / g.csize := by
  have hdiv := Nat.div_add_mod k g.csize
  refine Nat.div_eq_of_lt_le ?_ ?_
  · rw [Nat.mul_comm]
    omega
  · rw [Nat.add_mul, Nat.one_mul, Nat.mul_comm]
    omega

/-- The sectors behind one of the same cluster. -/
theorem sectorNo_add {chain : List Nat} {k j : Nat} (h : k % g.csize + j < g.csize) :
    g.sectorNo chain (k + j) = g.sectorNo chain k + j := by
  have hdiv := Nat.div_add_mod k g.csize
  have hdiv' := Nat.div_add_mod (k + j) g.csize
  rw [cluster_index h] at hdiv'
  rw [Geometry.sectorNo, Geometry.sectorNo, cluster_index h]
  omega

theorem cluster_add {k j l : Nat} (hk : k / g.csize < l) (h : k % g.csize + j < g.csize) :
    (k + j) / g.csize < l := by
  rw [cluster_index h]
  exact hk

/-- A run of sectors inside of one cluster of the file. -/
theorem owns_run {chain : List Nat} {k cc : Nat} (hk : k / g.csize < chain.length)
    (hcc : k % g.csize + cc ≤ g.csize)
    (hin : g.sectorNo chain k ≤ s ∧ s < g.sectorNo chain k + cc) :
    ∃ j, j < cc ∧ s = g.sectorNo chain (k + j) ∧ g.Owns chain s := by
  refine ⟨s - g.sectorNo chain k, by omega, ?_, ?_⟩
  · rw [sectorNo_add (by omega)]
    omega
  · refine ⟨chain[k / g.csize], List.getElem_mem hk, ?_⟩
    have hsect : g.sectorNo chain k = clust2sect g chain[k / g.csize] + k % g.csize := by
      rw [Geometry.sectorNo, List.getD_eq_getElem _ _ hk]
    exact ⟨by omega, by omega⟩

theorem sector_lt {k l : Nat} (h : k / g.csize < l) : k < l * g.csize := by
  have hmul := Nat.mul_le_mul_right g.csize (Nat.succ_le_of_lt h)
  rw [Nat.succ_mul, Nat.mul_comm (k / g.csize)] at hmul
  have hdiv := Nat.div_add_mod k g.csize
  have hmod := Nat.mod_lt k g.csize_pos
  omega

/-- The unsigned difference tells whether the buffer lies in a run of sectors. -/
theorem cached_iff (hs : Sound g v chains) (hplaced : f.dsect = 0 ∨ g.Owns (chains i) f.dsect)
    {k cc : Nat} (hk : k / g.csize < (chains i).length) (hcc : k % g.csize + cc ≤ g.csize) :
    (dwordSub f.dsect (g.sectorNo (chains i) k) < cc ↔
        g.sectorNo (chains i) k ≤ f.dsect ∧ f.dsect < g.sectorNo (chains i) k + cc) ∧
      (g.sectorNo (chains i) k ≤ f.dsect →
        dwordSub f.dsect (g.sectorNo (chains i) k) = f.dsect - g.sectorNo (chains i) k) := by
  have hdsect : f.dsect < 2 ^ 32 := by
    obtain h | h := hplaced
    · rw [h]
      decide
    · exact (hs.owned h).2.2.2.1
  have hlast : ∀ j, j < cc → g.sectorNo (chains i) k + j < 2 ^ 32 := fun j hj => by
    obtain ⟨-, -, -, hown⟩ := owns_run (s := g.sectorNo (chains i) k + j) hk hcc
      ⟨by omega, by omega⟩
    exact (hs.owned hown).2.2.2.1
  have hend := hlast (cc - 1)
  unfold dwordSub
  constructor
  · omega
  · omega

theorem writeSectors_cases (wbuff : List UInt8) (hs : Sound g v chains)
    (hb : Buffered g v f (chains i)) (hdirty : f.dirty = false) {k cc : Nat}
    (hk : k / g.csize < (chains i).length) (hcc : k % g.csize + cc ≤ g.csize) :
    ∃ v', Moved g i v chains v' chains ∧
      (∀ j, j < (chains i).length * g.csize → ¬(k ≤ j ∧ j < k + cc) →
        v'.disk.data (g.sectorNo (chains i) j) = v.disk.data (g.sectorNo (chains i) j)) ∧
      ((∃ f', writeSectors v f wbuff (g.sectorNo (chains i) k) cc = (.go, v', f') ∧
          f' = { f with buf := f'.buf } ∧ Buffered g v' f' (chains i) ∧
          ∀ j, j < cc → v'.disk.data (g.sectorNo (chains i) (k + j)) = sectorsOf wbuff j) ∨
        (¬v.disk.Reliable ∧
          writeSectors v f wbuff (g.sectorNo (chains i) k) cc = (.abort .diskErr, v', f))) := by
  generalize hsect : g.sectorNo (chains i) k = sect
  have hrun : ∀ s, sect ≤ s ∧ s < sect + cc →
      ∃ j, j < cc ∧ s = g.sectorNo (chains i) (k + j) ∧ g.Owns (chains i) s := fun s hin =>
    owns_run hk hcc (hsect ▸ hin)
  have hmoved : ∀ (buf : Nat → Sector),
      Moved g i v chains { v with disk := v.disk.put buf sect cc } chains := fun buf =>
    moved_disk hs (Drive.after_put ..) fun s hout => Drive.put_data_of_outside fun hin => by
      obtain ⟨j, -, -, hown⟩ := hrun s hin
      exact hout hown
  have houtside : ∀ (buf : Nat → Sector) j, j < (chains i).length * g.csize →
      ¬(k ≤ j ∧ j < k + cc) → (v.disk.put buf sect cc).data (g.sectorNo (chains i) j) =
        v.disk.data (g.sectorNo (chains i) j) := by
    intro buf j hj hout
    refine Drive.put_data_of_outside fun hin => ?_
    obtain ⟨m, hm, he, -⟩ := hrun _ hin
    have := hs.sectorNo_inj hj (sector_lt (cluster_add hk (by omega))) he
    omega
  have hinside : ∀ j, j < cc →
      (v.disk.put (sectorsOf wbuff) sect cc).data (g.sectorNo (chains i) (k + j)) =
        sectorsOf wbuff j := by
    intro j hj
    have hat : g.sectorNo (chains i) (k + j) = sect + j := by
      rw [sectorNo_add (by omega), hsect]
    rw [hat]
    show (if sect ≤ sect + j ∧ sect + j < sect + cc then sectorsOf wbuff (sect + j - sect)
      else _) = _
    rw [if_pos ⟨by omega, by omega⟩, Nat.add_sub_cancel_left]
  unfold writeSectors
  obtain hw | ⟨hbad, junk, hw⟩ := v.disk.write_cases (sectorsOf wbuff) sect cc
  swap
  · exact ⟨_, hmoved junk, houtside junk, Or.inr ⟨hbad, by rw [hw]⟩⟩
  refine ⟨_, hmoved (sectorsOf wbuff), houtside _, Or.inl ?_⟩
  rw [hw]
  obtain ⟨hcached, hsub⟩ := cached_iff hs hb.placed hk hcc
  rw [hsect] at hcached hsub
  by_cases hin : sect ≤ f.dsect ∧ f.dsect < sect + cc
  · obtain ⟨j, hj, he, hown⟩ := hrun f.dsect hin
    have hat : f.dsect - sect = j := by
      rw [he, sectorNo_add (by omega), hsect]
      omega
    simp only [if_pos (hcached.mpr hin), ← hdirty]
    refine ⟨_, rfl, rfl, ⟨hb.placed, hb.lost, fun _ _ => ?_⟩, hinside⟩
    show (v.disk.put _ sect cc).data f.dsect = sectorsOf wbuff (dwordSub f.dsect sect)
    rw [hsub hin.1, hat, he]
    exact hinside j hj
  · simp only [if_neg (mt hcached.mp hin)]
    refine ⟨_, rfl, rfl, ⟨hb.placed, hb.lost, fun hclean hsome => ?_⟩, hinside⟩
    exact (Drive.put_data_of_outside hin).trans (hb.clean hclean hsome)

theorem fillBuffer_cases (hs : Sound g v chains) (hb : Buffered g v f (chains i))
    (hdirty : f.dirty = false) (hown : g.Owns (chains i) s) :
    ∃ v', Moved g i v chains v' chains ∧ v'.disk.data = v.disk.data ∧
      ((∃ buf, fillBuffer v f s = (.go, v', { f with buf := buf, dsect := s }) ∧
          (f.fptr < f.fsize → buf = v.disk.data s)) ∨
        (¬v.disk.Reliable ∧ ∃ buf,
          fillBuffer v f s = (.abort .diskErr, v', { f with buf := buf }))) := by
  unfold fillBuffer
  by_cases hread : f.dsect ≠ s ∧ f.fptr < f.fsize
  swap
  · rw [if_neg hread]
    refine ⟨v, Moved.refl hs, rfl, Or.inl ⟨f.buf, rfl, fun hold => ?_⟩⟩
    have hhere : f.dsect = s := by
      by_contra hne
      exact hread ⟨hne, hold⟩
    subst hhere
    exact (hb.clean hdirty (hs.owned hown).2.2.1).symm
  rw [if_pos hread]
  obtain ⟨d, hr, hafter, hdata⟩ | ⟨hbad, junk, d, hr, hafter, hdata⟩ := v.disk.read_cases s
  · refine ⟨{ v with disk := d }, moved_disk hs hafter fun b _ => congrFun hdata b, hdata,
      Or.inl ⟨v.disk.data s, by rw [hr]; rfl, fun _ => rfl⟩⟩
  · exact ⟨{ v with disk := d }, moved_disk hs hafter fun b _ => congrFun hdata b, hdata,
      Or.inr ⟨hbad, junk 0, by rw [hr]⟩⟩

/-! ## The chain -/

theorem head_eq_zero_iff (h : Sound g v chains) : (chains i).headD 0 = 0 ↔ chains i = [] := by
  cases hc : chains i with
  | nil => exact ⟨fun _ => rfl, fun _ => rfl⟩
  | cons a l =>
      have ha := (h.isCluster (i := i) (hc ▸ List.mem_cons_self)).1
      exact ⟨fun h => absurd h (by show a ≠ 0; omega), fun h => by cases h⟩

/-- Allocation frees no cluster and damages no entry. -/
theorem created_links {clst : Nat} {out : Nat × Volume} (h : Created g v clst out)
    (hw : Whole g v) (a : Nat) :
    (g.links out.2 a = .free → g.links v a = .free) ∧
      (g.links out.2 a = .bad → g.links v a = .bad) := by
  have hmark : ∀ {t : Nat → Link Nat} {n : Nat},
      (Function.update t n .last a = .free → t a = .free) ∧
        (Function.update t n .last a = .bad → t a = .bad) := by
    intro t n
    by_cases ha : a = n
    · rw [ha, Function.update_self]
      exact ⟨fun h => (by cases h), fun h => (by cases h)⟩
    · rw [Function.update_of_ne ha]
      exact ⟨id, id⟩
  cases h with
  | @took n v' hfree hkept hhints hlinks hend =>
      rw [links_of_window (noteTaken_toWindow v' n), hlinks, taken]
      split
      · exact hmark
      · by_cases ha : a = clst
        · rw [ha, Function.update_self]
          exact ⟨fun h => (by cases h), fun h => (by cases h)⟩
        · rw [Function.update_of_ne ha]
          exact hmark
  | followed hnext hshown => rw [hshown.links]; exact ⟨id, id⟩
  | full hshown hused => rw [hshown.links]; exact ⟨id, id⟩
  | inconsistent hshown hwhy => rw [hshown.links]; exact ⟨id, id⟩
  | failed hkept hout =>
      obtain ⟨n, -, -, hwhole⟩ := hout.marked
      obtain h | h := hwhole hw
      · rw [h]; exact ⟨id, id⟩
      · rw [h]; exact hmark
  | unread hshown hbad => rw [hshown.links]; exact ⟨id, id⟩

/-- A cluster that `create_chain` hands out anew was free. -/
theorem created_new {clst : Nat} {out : Nat × Volume} (h : Created g v clst out)
    (hc : g.IsCluster out.1) :
    g.links v out.1 = .free ∨ g.links v clst = .next out.1 := by
  cases h with
  | took hfree => exact Or.inl hfree
  | followed hnext => exact Or.inr hnext
  | full => exact absurd hc (by unfold Geometry.IsCluster; omega)
  | inconsistent => exact absurd hc (by unfold Geometry.IsCluster; omega)
  | failed => exact absurd hc (not_isCluster_diskError g)
  | unread => exact absurd hc (not_isCluster_diskError g)

theorem csect_eq (g : Geometry) (f : File) : f.csect g = f.fptr / 512 % g.csize := by
  obtain ⟨k, hk, hpow⟩ := g.csizePow
  have hle : 2 ^ k ≤ 2 ^ 7 := Nat.pow_le_pow_right (by omega) hk
  have hlt := Nat.mod_lt (f.fptr / 512) g.csize_pos
  have hmask := Nat.and_two_pow_sub_one_eq_mod (f.fptr / 512) k
  rw [← hpow] at hmask
  rw [File.csect, hmask]
  exact Nat.mod_eq_of_lt (by omega)

/-- The start of a cluster behind the first. -/
theorem previous_cluster {k p : Nat} (hp : p ≠ 0) (hcut : p % 512 = 0)
    (hstart : p / 512 % k = 0) (hk : 0 < k) : (p - 1) / 512 / k + 1 = p / 512 / k := by
  have hsect : (p - 1) / 512 = p / 512 - 1 := by omega
  have hpos : 0 < p / 512 := by omega
  obtain ⟨q, hq⟩ := Nat.dvd_of_mod_eq_zero hstart
  have hqpos : 0 < q := by
    refine Nat.pos_of_ne_zero fun h => ?_
    rw [h, Nat.mul_zero] at hq
    omega
  rw [hsect, hq, Nat.mul_div_cancel_left _ hk]
  have hlast : (k * q - 1) / k = q - 1 := by
    refine Nat.div_eq_of_lt_le ?_ ?_
    · rw [Nat.sub_mul, Nat.one_mul, Nat.mul_comm]
      omega
    · rw [Nat.sub_add_cancel hqpos, Nat.mul_comm q k]
      have := Nat.mul_pos hk hqpos
      omega
  omega

/-- Inside of a cluster the byte before lies in the same one. -/
theorem same_cluster {k p : Nat} (hcut : p % 512 = 0) (hstart : p / 512 % k ≠ 0) (hk : 0 < k) :
    (p - 1) / 512 / k = p / 512 / k := by
  have hsect : (p - 1) / 512 = p / 512 - 1 := by omega
  have hdiv := Nat.div_add_mod (p / 512) k
  have hlt := Nat.mod_lt (p / 512) hk
  rw [hsect]
  refine Nat.div_eq_of_lt_le ?_ ?_
  · rw [Nat.mul_comm]
    omega
  · rw [Nat.add_mul, Nat.one_mul, Nat.mul_comm]
    omega

theorem cluster_lt {k l p : Nat} (h : p < l * k * 512) : p / 512 / k < l := by
  rw [Nat.div_div_eq_div_mul]
  refine Nat.div_lt_of_lt_mul ?_
  calc p < l * k * 512 := h
    _ = 512 * k * l := by rw [Nat.mul_comm (l * k), Nat.mul_comm l, Nat.mul_assoc]

/-- An answer that is cluster `k` of the chain, or says why there is none. -/
def Reached (g : Geometry) (i : ι) (v : Volume) (chains : ι → List Nat) (k : Nat)
    (out : Nat × Volume) (chains' : ι → List Nat) : Prop :=
  (g.IsCluster out.1 ∧ k < (chains' i).length ∧ out.1 = (chains' i).getD k 0) ∨
    (chains' = chains ∧
      ((out.1 = 0 ∧ k = (chains i).length ∧ ∀ c, g.links out.2 c ≠ .free) ∨
      (out.1 = 1 ∧ Damaged g v) ∨ (out.1 = diskError ∧ ¬v.disk.Reliable)))

/-- The file at the start of a sector, in a cluster of its chain. -/
structure Entered (g : Geometry) (f : File) (chain : List Nat) (f' : File) : Prop where
  same : f' = { f with clust := f'.clust, sclust := f'.sclust }
  start : f'.sclust = chain.headD 0
  within : f.fptr / 512 / g.csize < chain.length
  cluster : f'.clust = chain.getD (f.fptr / 512 / g.csize) 0

/-- Accesses to the table leave the window off the data of the files. -/
theorem Kept.off (hs : Sound g v chains) (hk : Kept g v v') (hc : ForData g v chains c) :
    ¬g.InCluster c v'.winsect := by
  intro hin
  obtain ⟨hhome, hoff, -⟩ := hin.offTable (hc.isCluster hs.apart)
  obtain hp | hp | hp := hk.placed
  · rw [hp] at hin
    exact hs.off c hc hin
  · rw [hp] at hhome
    exact Nat.lt_irrefl _ hhome.1
  · exact hoff hp

theorem shown_moved (hs : Sound g v chains) (h : Shown g v v') : Moved g i v chains v' chains := by
  have hfewer : ∀ c, ForData g v' chains c → ForData g v chains c := fun c hc =>
    hc.of_links h.links
  refine ⟨⟨h.coherent, ?_, fun c hc => h.toKept.off hs (hfewer c hc)⟩,
    h.after, fun _ _ => rfl, ⟨[], (List.append_nil _).symm⟩, hfewer, fun s hhome _ _ =>
    h.view s hhome, h.mirrored, fun hbad => ?_⟩
  · rw [h.links]
    exact hs.apart
  · unfold Damaged at hbad
    rw [h.links] at hbad
    exact hbad

section chain

variable [DecidableEq ι]

theorem grown_others {j : ι} (hj : j ≠ i) (n : Nat) : grown g chains i n j = chains j := by
  unfold grown
  split
  · exact Function.update_of_ne hj ..
  · rfl

theorem grown_more (chains : ι → List Nat) (i : ι) (n : Nat) :
    grown g chains i n i = chains i ++ [n] ∧ g.IsCluster n ∧ n ∉ chains i ∨
      grown g chains i n = chains := by
  unfold grown
  split
  · next h => exact Or.inl ⟨Function.update_self .., h⟩
  · exact Or.inr rfl

theorem created_moved {clst : Nat} {out : Nat × Volume} (h : Created g v clst out)
    (hs : Sound g v chains) (hw : Whole g v) (hown : (clst = 0 ∧ chains i = []) ∨ clst ∈ chains i) :
    Moved g i v chains out.2 (grown g chains i out.1) := by
  have hk := h.kept
  have hlinks := created_links h hw
  have hfewer : ∀ c, ForData g out.2 (grown g chains i out.1) c → ForData g v chains c := by
    rintro c (hfree | ⟨j, hj⟩)
    · exact Or.inl ((hlinks c).1 hfree)
    obtain ⟨hmore, hcl, hnew⟩ | hsame := grown_more (g := g) chains i out.1
    · by_cases hji : j = i
      · subst hji
        rw [hmore] at hj
        obtain hj | hj := List.mem_append.mp hj
        · exact Or.inr ⟨j, hj⟩
        · rw [List.mem_singleton.mp hj]
          obtain hfree | hnext := created_new h hcl
          · exact Or.inl hfree
          · have hmem := hown.resolve_left fun hz => by
              have := (Geometry.links_eq_next_iff.mp hnext).1.1
              omega
            exact absurd ((hs.apart.linked j).next_mem hmem hnext) hnew
      · rw [grown_others hji] at hj
        exact Or.inr ⟨j, hj⟩
    · rw [hsame] at hj
      exact Or.inr ⟨j, hj⟩
  refine ⟨⟨hk.coherent, apart_created h hw hs.apart hown, ?_⟩,
    hk.after, fun j hj => grown_others hj _, ?_, hfewer, fun s hs hst _ => hk.offTable s hs hst,
    hk.mirrored, fun ⟨c, hc, hbad⟩ => ⟨c, hc, (hlinks c).2 hbad⟩⟩
  · exact fun c hc => hk.off hs (hfewer c hc)
  · obtain ⟨hmore, -⟩ | hsame := grown_more (g := g) chains i out.1
    · exact ⟨_, hmore⟩
    · exact ⟨[], by rw [hsame, List.append_nil]⟩

/-- `create_chain` at the end of the first `k` clusters answers cluster `k`. -/
theorem created_reached {clst k : Nat} {out : Nat × Volume} (h : Created g v clst out)
    (hs : Sound g v chains) (hown : (clst = 0 ∧ chains i = []) ∨ clst ∈ chains i)
    (hat : (chains i = [] ∧ k = 0) ∨
      ∃ j, ∃ hj : j < (chains i).length, clst = (chains i)[j] ∧ j + 1 = k) :
    Reached g i v chains k out (grown g chains i out.1) := by
  have hl := hs.apart.linked i
  have hat' : clst ≠ 0 → ∃ j, ∃ hj : j < (chains i).length, clst = (chains i)[j] ∧ j + 1 = k := by
    intro hne
    refine hat.resolve_left fun h => ?_
    have hmem := hown.resolve_left fun hz => hne hz.1
    rw [h.1] at hmem
    cases hmem
  have hatEnd : clst = 0 ∨ g.links v clst = .last → k = (chains i).length := by
    intro hend
    obtain ⟨hnone, hzero⟩ | ⟨j, hj, he, hnext⟩ := hat
    · rw [hzero, hnone]
      rfl
    · have hpos := (hs.isCluster (i := i) (List.getElem_mem hj)).1
      have hlast := hend.resolve_left (by omega)
      by_contra hne
      have hmore := hl.getElem_next (j := j) (by omega)
      rw [he, hmore] at hlast
      cases hlast
  cases h with
  | @took n v' hfree hkept hhints hlinks hend =>
      have hcl := (Geometry.links_eq_free_iff.mp hfree).1
      have hout : n ∉ chains i := fun hmem => hl.not_free hmem hfree
      have hgrown : grown g chains i n i = chains i ++ [n] := by
        unfold grown
        rw [if_pos ⟨hcl, hout⟩, Function.update_self]
      have hlen := hatEnd hend
      refine Or.inl ⟨hcl, ?_, ?_⟩
      · rw [hgrown, hlen, List.length_append]
        exact Nat.lt_succ_self _
      · rw [hgrown, hlen, List.getD_append_right _ _ _ _ (Nat.le_refl _), Nat.sub_self]
        rfl
  | @followed n v' hnext hshown =>
      have hpos := (Geometry.links_eq_next_iff.mp hnext).1.1
      obtain ⟨j, hj, he, hk⟩ := hat' (by omega)
      have hin := hl.next_mem (hown.resolve_left (by omega)) hnext
      have hgrown : grown g chains i n = chains := if_neg fun h => h.2 hin
      have hlt : j + 1 < (chains i).length := by
        by_contra hend
        have hlast := hl.getElem_last hj (by omega)
        rw [he, hlast] at hnext
        cases hnext
      have hval := hl.getElem_next hlt
      rw [he, hval] at hnext
      cases hnext
      rw [hgrown]
      refine Or.inl ⟨hs.isCluster hin, by omega, ?_⟩
      subst hk
      exact (List.getD_eq_getElem _ _ hlt).symm
  | full hshown hused hend =>
      refine Or.inr ⟨grown_of_not (by unfold Geometry.IsCluster; omega),
        Or.inl ⟨rfl, hatEnd hend, ?_⟩⟩
      rw [hshown.links]
      exact hused
  | inconsistent hshown hwhy =>
      refine Or.inr ⟨grown_of_not (by unfold Geometry.IsCluster; omega),
        Or.inr (Or.inl ⟨rfl, hwhy.resolve_right fun h => ?_⟩)⟩
      have hmem := hown.resolve_left fun hz => h.1 hz.1
      obtain hfree | hbad := h.2
      · exact hl.not_free hmem hfree
      · obtain h' | ⟨b, -, h'⟩ := hl.used hmem <;> cases h'.symm.trans hbad
  | failed hkept hout =>
      exact Or.inr ⟨grown_of_not (not_isCluster_diskError g),
        Or.inr (Or.inr ⟨rfl, hout.unreliable⟩)⟩
  | unread hshown hbad =>
      exact Or.inr ⟨grown_of_not (not_isCluster_diskError g), Or.inr (Or.inr ⟨rfl, hbad⟩)⟩

theorem created_walk {clst k : Nat} {out : Nat × Volume} (h : Created g v clst out)
    (hs : Sound g v chains) (hw : Whole g v) (hown : (clst = 0 ∧ chains i = []) ∨ clst ∈ chains i)
    (hat : (chains i = [] ∧ k = 0) ∨
      ∃ j, ∃ hj : j < (chains i).length, clst = (chains i)[j] ∧ j + 1 = k) :
    ∃ chains', Moved g i v chains out.2 chains' ∧
      (∀ s, g.home s → ¬g.InTable s → out.2.view s = v.view s) ∧
      Reached g i v chains k out chains' :=
  ⟨_, created_moved h hs hw hown, h.kept.offTable, created_reached h hs hown hat⟩

/-- The cluster at the pointer: the next one of the chain, which may be new. -/
theorem nextCluster_reached (hs : Sound g v chains) (hw : Whole g v) (hf : f.Ready g v (chains i))
    (hcut : f.fptr % 512 = 0) (hstart : f.csect g = 0) :
    ∃ chains', Moved g i v chains (nextCluster g v f).2 chains' ∧
      (∀ s, g.home s → ¬g.InTable s → (nextCluster g v f).2.view s = v.view s) ∧
      Reached g i v chains (f.fptr / 512 / g.csize) (nextCluster g v f) chains' := by
  rw [csect_eq] at hstart
  unfold nextCluster
  by_cases hzero : f.fptr = 0
  · have hindex : f.fptr / 512 / g.csize = 0 := by rw [hzero]; simp
    rw [if_pos hzero]
    by_cases hnew : f.sclust = 0
    · have hnone := (head_eq_zero_iff hs (i := i)).mp (hf.start ▸ hnew)
      rw [if_pos hnew]
      exact created_walk (createChain_created hs.coherent 0) hs hw (Or.inl ⟨rfl, hnone⟩)
        (Or.inl ⟨hnone, hindex⟩)
    · rw [if_neg hnew]
      have hsome : chains i ≠ [] := fun h => hnew (hf.start.trans ((head_eq_zero_iff hs).mpr h))
      have hlen := List.length_pos_iff.mpr hsome
      have hhead : f.sclust = (chains i).getD 0 0 := by
        rw [hf.start]
        cases chains i <;> rfl
      refine ⟨chains, Moved.refl hs, fun _ _ _ => rfl, Or.inl ?_⟩
      rw [hindex]
      refine ⟨?_, hlen, hhead⟩
      rw [hhead, List.getD_eq_getElem _ _ hlen]
      exact hs.isCluster (List.getElem_mem hlen)
  · rw [if_neg hzero]
    have hprev := previous_cluster hzero hcut hstart g.csize_pos
    have hj : (f.fptr - 1) / 512 / g.csize < (chains i).length :=
      cluster_lt (by have := hf.reach; omega)
    have hclust : f.clust = (chains i)[(f.fptr - 1) / 512 / g.csize] := by
      rw [hf.current hzero, List.getD_eq_getElem _ _ hj]
    exact created_walk (createChain_created hs.coherent _) hs hw
      (Or.inr (hclust ▸ List.getElem_mem hj)) (Or.inr ⟨_, hj, hclust, hprev⟩)

theorem enterCluster_cases (hs : Sound g v chains) (hw : Whole g v) (hf : f.Ready g v (chains i))
    (hcut : f.fptr % 512 = 0) :
    ∃ v' chains', Moved g i v chains v' chains' ∧
      (∀ s, g.home s → ¬g.InTable s → v'.view s = v.view s) ∧
      ((∃ f', enterCluster g v f = (.go, v', f') ∧ Entered g f (chains' i) f') ∨
        (chains' = chains ∧ enterCluster g v f = (.full, v', f) ∧ ∀ c, g.links v' c ≠ .free) ∨
        (chains' = chains ∧ ∃ res, enterCluster g v f = (.abort res, v', f) ∧ res ≠ .ok ∧
          (v.disk.Reliable → Damaged g v))) := by
  unfold enterCluster
  by_cases hstart : f.csect g = 0
  swap
  · rw [if_neg hstart]
    rw [csect_eq] at hstart
    have hzero : f.fptr ≠ 0 := by
      intro h
      rw [h] at hstart
      simp at hstart
    have hprev := same_cluster hcut hstart g.csize_pos
    have hlt : f.fptr / 512 / g.csize < (chains i).length := by
      rw [← hprev]
      exact cluster_lt (by have := hf.reach; omega)
    exact ⟨v, chains, Moved.refl hs, fun _ _ _ => rfl,
      Or.inl ⟨f, rfl, rfl, hf.start, hlt, hprev ▸ hf.current hzero⟩⟩
  rw [if_pos hstart]
  obtain ⟨chains', hm, hview, hout⟩ := nextCluster_reached hs hw hf hcut hstart
  rcases hnext : nextCluster g v f with ⟨clst, v'⟩
  rw [hnext] at hm hview hout
  refine ⟨v', chains', hm, hview, ?_⟩
  obtain ⟨hcl, hlt, hval⟩ | ⟨hsame, ⟨rfl, -, hfull⟩ | ⟨rfl, hbad⟩ | ⟨rfl, hbad⟩⟩ := hout
  · have hlow : 2 ≤ clst := hcl.1
    have herr : clst ≠ diskError := fun h => not_isCluster_diskError g (h ▸ hcl)
    refine Or.inl ⟨{ f with clust := clst, sclust := if f.sclust = 0 then clst else f.sclust },
      ?_, rfl, ?_, hlt, hval⟩
    · simp only [if_neg (show ¬clst = 0 by omega), if_neg (show ¬clst = 1 by omega), if_neg herr]
    · show (if f.sclust = 0 then clst else f.sclust) = _
      obtain ⟨l, hl⟩ := hm.more
      by_cases hnone : chains i = []
      · have hzero : f.fptr = 0 := by
          have hreach := hf.reach
          rw [hnone] at hreach
          simpa using hreach
        have hnew : f.sclust = 0 := hf.start.trans ((head_eq_zero_iff hs).mpr hnone)
        have hfirst : clst = (chains' i).getD 0 0 := by
          rw [hzero] at hval
          simpa using hval
        rw [if_pos hnew, hfirst]
        cases chains' i <;> rfl
      · have hused : f.sclust ≠ 0 := fun h => hnone ((head_eq_zero_iff hs).mp (hf.start ▸ h))
        rw [if_neg hused, hf.start, hl]
        cases hc : chains i with
        | nil => exact absurd hc hnone
        | cons a r => rfl
  · exact Or.inr (Or.inl ⟨hsame, rfl, hfull⟩)
  · exact Or.inr (Or.inr ⟨hsame, .intErr, rfl, by decide, fun _ => hbad⟩)
  · exact Or.inr (Or.inr ⟨hsame, .diskErr, rfl, by decide, fun hr => absurd hr hbad⟩)

end chain

end Fat
end ImuFirmware
