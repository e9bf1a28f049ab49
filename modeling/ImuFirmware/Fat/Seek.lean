/-
`f_lseek`, with `_USE_FASTSEEK` off.

The walk starts in the current cluster where it can, else in the first one.  A file open
for writing grows on the way, and its size with it, up to the end of the volume; one open
for reading only is never left.  What the file held stays, also where a transfer fails.
-/
import ImuFirmware.Fat.Read

namespace ImuFirmware
namespace Fat

open Storage

/-- `bcs`, the bytes of a cluster. -/
def Geometry.bcs (g : Geometry) : Nat := g.csize * 512

/-- The start of the current cluster in the file. -/
def File.clusterStart (g : Geometry) (f : File) : Nat :=
  (f.fptr - 1) &&& (0xFFFFFFFF ^^^ (g.bcs - 1))

/-- The start of the walk: the current cluster for a place there or behind, else the first
one, which may be new. -/
def startSeek (g : Geometry) (v : Volume) (f : File) (ofs : Nat) : Flow × Volume × File :=
  if 0 < f.fptr ∧ (f.fptr - 1) / g.bcs ≤ (ofs - 1) / g.bcs then
    (.go, v, { f with fptr := f.clusterStart g })
  else if f.sclust = 0 then
    match createChain g v 0 with
    | (clst, v) =>
        if clst = 1 then (.abort .intErr, v, { f with fptr := 0 })
        else if clst = diskError then (.abort .diskErr, v, { f with fptr := 0 })
        else (.go, v, { f with fptr := 0, sclust := clst, clust := clst })
  else (.go, v, { f with fptr := 0, clust := f.sclust })

/-- The cluster behind the current one. -/
def clusterBehind (g : Geometry) (v : Volume) (f : File) : Nat × Volume :=
  if f.canWrite then createChain g v f.clust else getFat g v f.clust

/-- The loop over the clusters, with what is left of the offset. -/
def seekLoop (g : Geometry) (v : Volume) (f : File) (ofs : Nat) : Flow × Nat × Volume × File :=
  if _hmore : ofs ≤ g.bcs then (.go, ofs, v, f)
  else
    match clusterBehind g v f with
    | (clst, v) =>
        if f.canWrite = true ∧ clst = 0 then (.full, g.bcs, v, f)
        else if clst = diskError then (.abort .diskErr, ofs, v, f)
        else if clst ≤ 1 ∨ g.nFatent ≤ clst then (.abort .intErr, ofs, v, f)
        else seekLoop g v { f with clust := clst, fptr := f.fptr + g.bcs } (ofs - g.bcs)
  termination_by ofs
  decreasing_by
    have hpos := g.csize_pos
    have hbcs : g.bcs = g.csize * 512 := rfl
    omega

/-- The end of the walk.  A pointer inside of a sector gets that into the buffer. -/
def land (g : Geometry) (v : Volume) (f : File) (ofs : Nat) : Flow × Volume × File :=
  if ofs % 512 ≠ 0 ∧ clust2sect g f.clust = 0 then (.abort .intErr, v, f.advance ofs)
  else if (f.advance ofs).fptr % 512 ≠ 0 then
    loadBuffer v (f.advance ofs) (if ofs % 512 ≠ 0 then clust2sect g f.clust + ofs / 512 else 0)
  else (.go, v, f.advance ofs)

/-- The normal seek. -/
def seekTo (g : Geometry) (v : Volume) (f : File) (ofs : Nat) : Flow × Volume × File :=
  if ofs = 0 then (.go, v, { f with fptr := 0 })
  else
    match startSeek g v f ofs with
    | (.go, v, f) =>
        -- with no cluster the pointer stays at the start
        if f.clust = 0 then (.go, v, f)
        else
          match seekLoop g v f (ofs - f.fptr) with
          | (.abort res, _, v, f) => (.abort res, v, f)
          | (_, ofs, v, f) => land g v f ofs
    | (flow, v, f) => (flow, v, f)

/-- A seek behind the end makes the file longer. -/
def File.stretch (f : File) : File :=
  if f.fsize < f.fptr then { f with fsize := f.fptr, changed := true } else f

/-- `f_lseek`. -/
def fLseek (g : Geometry) (v : Volume) (f : File) (ofs : Nat) : FResult × Volume × File :=
  if f.attached = false then (.invalidObject, v, f)
  else if f.err ≠ .ok then (f.err, v, f)
  else
    match seekTo g v f (if f.fsize < ofs ∧ f.canWrite = false then f.fsize else ofs) with
    | (.abort res, v, f) => (res, v, { f with err := res })
    | (_, v, f) => (.ok, v, f.stretch)

variable {ι : Type} {g : Geometry} {i : ι} {v v' v'' : Volume}
  {chains chains' chains'' : ι → List Nat} {f f' f'' : File} {k ofs : Nat}

/-! ## Clusters of a file by bytes -/

theorem bcs_pos (g : Geometry) : 0 < g.bcs := by
  have hpos := g.csize_pos
  have hbcs : g.bcs = g.csize * 512 := rfl
  omega

theorem div_bcs (g : Geometry) (p : Nat) : p / 512 / g.csize = p / g.bcs := by
  rw [Nat.div_div_eq_div_mul, Geometry.bcs, Nat.mul_comm 512]

theorem mul_bcs (g : Geometry) (n : Nat) : n * g.csize * 512 = n * g.bcs := Nat.mul_assoc ..

/-- The mask cuts the place inside of the cluster off. -/
theorem clusterStart_eq (g : Geometry) {f : File} (h : f.fptr ≤ 2 ^ 32) :
    f.clusterStart g = (f.fptr - 1) / g.bcs * g.bcs := by
  obtain ⟨n, hn, hpow⟩ := g.csizePow
  have hbcs : g.bcs = 2 ^ (n + 9) := by
    rw [Geometry.bcs, hpow, Nat.pow_add]
  have hlt : f.fptr - 1 < 2 ^ 32 := by omega
  have hones : (0xFFFFFFFF : Nat) = 2 ^ 32 - 1 := rfl
  unfold File.clusterStart
  generalize f.fptr - 1 = p at hlt
  rw [hbcs, hones, ← Nat.shiftRight_eq_div_pow, ← Nat.shiftLeft_eq]
  refine Nat.eq_of_testBit_eq fun b => ?_
  rw [Nat.testBit_and, Nat.testBit_xor, Nat.testBit_two_pow_sub_one, Nat.testBit_two_pow_sub_one,
    Nat.testBit_shiftLeft, Nat.testBit_shiftRight]
  by_cases hlow : b < n + 9
  · have hin : b < 32 := by omega
    simp [hlow, hin]
  · have hsum : n + 9 + (b - (n + 9)) = b := by omega
    rw [hsum]
    by_cases hin : b < 32
    · simp [hlow, hin, Nat.le_of_not_lt hlow]
    · have hoff : p.testBit b = false := by
        refine Nat.testBit_lt_two_pow (Nat.lt_of_lt_of_le hlt ?_)
        exact Nat.pow_le_pow_right (by omega) (by omega)
      simp [hoff]

/-! ## The walk -/

/-- The file at the start of cluster `k` of its chain, on its way. -/
structure Walking (g : Geometry) (i : ι) (v : Volume) (chains : ι → List Nat) (f : File)
    (k : Nat) (v' : Volume) (chains' : ι → List Nat) (f' : File) : Prop where
  moved : Moved g i v chains v' chains'
  view : ∀ s, g.home s → ¬g.InTable s → v'.view s = v.view s
  same : f' = { f with fptr := k * g.bcs, sclust := f'.sclust, clust := f'.clust }
  start : f'.sclust = (chains' i).headD 0
  within : k < (chains' i).length
  cluster : f'.clust = (chains' i).getD k 0

/-- Nothing but the volume moves on. -/
theorem Walking.stay (hw : Walking g i v chains f k v' chains' f')
    (hm : Moved g i v' chains' v'' chains')
    (hview : ∀ s, g.home s → ¬g.InTable s → v''.view s = v'.view s) :
    Walking g i v chains f k v'' chains' f' :=
  ⟨hw.moved.trans hm, fun s hs ht => (hview s hs ht).trans (hw.view s hs ht), hw.same, hw.start,
    hw.within, hw.cluster⟩

theorem Walking.next (hw : Walking g i v chains f k v' chains' f')
    (hm : Moved g i v' chains' v'' chains'')
    (hview : ∀ s, g.home s → ¬g.InTable s → v''.view s = v'.view s)
    (hk : k + 1 < (chains'' i).length) :
    Walking g i v chains f (k + 1) v'' chains''
      { f' with clust := (chains'' i).getD (k + 1) 0, fptr := f'.fptr + g.bcs } := by
  refine ⟨hw.moved.trans hm, fun s hs ht => (hview s hs ht).trans (hw.view s hs ht), ?_, ?_, hk,
    rfl⟩
  · rw [hw.same, Nat.succ_mul]
  · obtain ⟨l, hl⟩ := hm.more
    have hlen := hw.within
    show f'.sclust = _
    rw [hw.start, hl]
    cases hc : chains' i with
    | nil =>
        rw [hc] at hlen
        exact absurd hlen (Nat.not_lt_zero k)
    | cons a l => rfl

/-- The cluster behind the current one, if there is one or may be. -/
theorem Walking.behind [DecidableEq ι] (hw : Walking g i v chains f k v' chains' f')
    (hwhole : f.canWrite = true → Whole g v)
    (hmay : f.canWrite = true ∨ k + 1 < (chains' i).length) :
    ∃ chains'', Moved g i v' chains' (clusterBehind g v' f').2 chains'' ∧
      (∀ s, g.home s → ¬g.InTable s → (clusterBehind g v' f').2.view s = v'.view s) ∧
      Reached g i v' chains' (k + 1) (clusterBehind g v' f') chains'' ∧
      ((clusterBehind g v' f').1 = 0 → f'.canWrite = true) := by
  have hs := hw.moved.sound
  have hk := hw.within
  have hclust : f'.clust = (chains' i)[k] := by
    rw [hw.cluster, List.getD_eq_getElem _ _ hk]
  have hcan : f'.canWrite = f.canWrite := by rw [hw.same]
  unfold clusterBehind
  cases hwrite : f'.canWrite with
  | true =>
      rw [if_pos rfl]
      obtain ⟨chains'', hm, hview, hout⟩ :=
        created_walk (createChain_created hs.coherent f'.clust) hs
          ((hwhole (hcan.symm.trans hwrite)).after hw.moved.after)
          (Or.inr (hclust ▸ List.getElem_mem hk)) (Or.inr ⟨k, hk, hclust, rfl⟩)
      exact ⟨chains'', hm, hview, hout, fun _ => rfl⟩
  | false =>
      rw [if_neg Bool.false_ne_true, hclust]
      have hlt : k + 1 < (chains' i).length := hmay.resolve_left fun h => by
        rw [← hcan, hwrite] at h
        cases h
      obtain ⟨hcl, hin, hval⟩ := Geometry.links_eq_next_iff.mp
        ((hs.apart.linked i).getElem_next hlt)
      rcases hget : getFat g v' (chains' i)[k] with ⟨cs, v''⟩
      obtain ⟨hshown, he⟩ := getFat_eq hs.coherent hcl hget
      refine ⟨chains', shown_moved hs hshown, fun s hhome _ => hshown.view s hhome, ?_, ?_⟩
      · obtain he | ⟨he, hbad⟩ := he
        · refine Or.inl ⟨?_, hlt, ?_⟩
          · rw [he, hval]
            exact hs.isCluster (List.getElem_mem hlt)
          · rw [he, hval, List.getD_eq_getElem _ _ hlt]
        · exact Or.inr ⟨rfl, Or.inr (Or.inr ⟨he, hbad⟩)⟩
      · intro hzero
        have hzero' : cs = 0 := hzero
        obtain he | ⟨he, -⟩ := he
        · have hlow := hin.1
          omega
        · rw [he] at hzero'
          cases hzero'

/-- What the loop comes to, for a place `total` bytes into the file. -/
inductive Walked (g : Geometry) (i : ι) (v : Volume) (chains : ι → List Nat) (f : File)
    (total : Nat) : Flow × Nat × Volume × File → Prop
  | arrived {k ofs : Nat} {v' : Volume} {chains' : ι → List Nat} {f' : File}
      (hw : Walking g i v chains f k v' chains' f') (hpos : 0 < ofs) (hfit : ofs ≤ g.bcs)
      (hsum : k * g.bcs + ofs = total) : Walked g i v chains f total (.go, ofs, v', f')
  | full {k : Nat} {v' : Volume} {chains' : ι → List Nat} {f' : File}
      (hw : Walking g i v chains f k v' chains' f') (hwrite : f.canWrite = true)
      (hend : k + 1 = (chains' i).length) (hless : k * g.bcs + g.bcs < total)
      (hused : ∀ c, g.links v' c ≠ .free) : Walked g i v chains f total (.full, g.bcs, v', f')
  | aborted {res : FResult} {k ofs : Nat} {v' : Volume} {chains' : ι → List Nat} {f' : File}
      (hres : res ≠ .ok) (hw : Walking g i v chains f k v' chains' f')
      (hwhy : v.disk.Reliable → Damaged g v) :
      Walked g i v chains f total (.abort res, ofs, v', f')

theorem seekLoop_walked [DecidableEq ι] (hw : Walking g i v chains f k v' chains' f')
    (hwhole : f.canWrite = true → Whole g v) (hpos : 0 < ofs)
    (hroom : f.canWrite = false → k * g.bcs + ofs ≤ (chains i).length * g.bcs) :
    Walked g i v chains f (k * g.bcs + ofs) (seekLoop g v' f' ofs) := by
  induction ofs using Nat.strong_induction_on generalizing k v' chains' f' with
  | _ ofs ih =>
  rw [seekLoop]
  by_cases hfit : ofs ≤ g.bcs
  · rw [dif_pos hfit]
    exact .arrived hw hpos hfit rfl
  rw [dif_neg hfit]
  have hmay : f.canWrite = true ∨ k + 1 < (chains' i).length := by
    cases hcan : f.canWrite with
    | true => exact Or.inl rfl
    | false =>
        refine Or.inr (Nat.lt_of_mul_lt_mul_right (a := g.bcs) ?_)
        have hlen := Nat.mul_le_mul_right g.bcs hw.moved.length_le
        have hend := hroom hcan
        rw [Nat.succ_mul]
        omega
  obtain ⟨chains'', hm, hview, hout, hcan⟩ := hw.behind hwhole hmay
  rcases hbehind : clusterBehind g v' f' with ⟨clst, v''⟩
  rw [hbehind] at hm hview hout hcan
  obtain ⟨hcl, hlt, hval⟩ | ⟨rfl, ⟨rfl, hend, hused⟩ | ⟨rfl, hbad⟩ | ⟨rfl, hbad⟩⟩ := hout
  · have hlow : 2 ≤ clst := hcl.1
    have hhigh : clst < g.nFatent := hcl.2
    have herr : clst ≠ diskError := fun h => not_isCluster_diskError g (h ▸ hcl)
    have hzero : ¬(f'.canWrite = true ∧ clst = 0) := by omega
    have hin : ¬(clst ≤ 1 ∨ g.nFatent ≤ clst) := by omega
    simp only [if_neg hzero, if_neg herr, if_neg hin]
    have hval' : clst = (chains'' i).getD (k + 1) 0 := hval
    have hsum : (k + 1) * g.bcs + (ofs - g.bcs) = k * g.bcs + ofs := by
      rw [Nat.succ_mul]
      omega
    have hpos' := bcs_pos g
    rw [← hsum, hval']
    exact ih (ofs - g.bcs) (by omega) (hw.next hm hview hlt) (by omega) fun h => hsum ▸ hroom h
  · have hgrow := hcan rfl
    have hwrite : f.canWrite = true := by
      rw [← hgrow, hw.same]
    have hless : k * g.bcs + g.bcs < k * g.bcs + ofs := by omega
    simp only [hgrow, and_self, if_true]
    exact .full (hw.stay hm hview) hwrite hend hless hused
  · simp only [if_neg (show ¬(f'.canWrite = true ∧ (1 : Nat) = 0) by omega),
      if_neg (show (1 : Nat) ≠ diskError by decide), if_pos (Or.inl (Nat.le_refl 1))]
    exact .aborted (by decide) (hw.stay hm hview) fun _ => hw.moved.intact hbad
  · simp only [if_neg (show ¬(f'.canWrite = true ∧ diskError = 0) from fun h => by cases h.2),
      if_true]
    exact .aborted (by decide) (hw.stay hm hview) fun hr => absurd (hr.after hw.moved.after) hbad

/-- Where the walk starts. -/
inductive Started (g : Geometry) (i : ι) (v : Volume) (chains : ι → List Nat) (f : File)
    (ofs : Nat) : Flow × Volume × File → Prop
  | set {k : Nat} {v' : Volume} {chains' : ι → List Nat} {f' : File}
      (hw : Walking g i v chains f k v' chains' f') (hlow : k * g.bcs < ofs) :
      Started g i v chains f ofs (.go, v', f')
  | full {v' : Volume} (hm : Moved g i v chains v' chains)
      (hview : ∀ s, g.home s → ¬g.InTable s → v'.view s = v.view s) (hnone : chains i = [])
      (hused : ∀ c, g.links v' c ≠ .free) :
      Started g i v chains f ofs (.go, v', { f with fptr := 0, sclust := 0, clust := 0 })
  | aborted {res : FResult} {v' : Volume} (hres : res ≠ .ok) (hm : Moved g i v chains v' chains)
      (hview : ∀ s, g.home s → ¬g.InTable s → v'.view s = v.view s)
      (hwhy : v.disk.Reliable → Damaged g v) :
      Started g i v chains f ofs (.abort res, v', { f with fptr := 0 })

theorem startSeek_started [DecidableEq ι] (hs : Sound g v chains)
    (hwhole : chains i = [] → Whole g v) (hf : f.Ready g v (chains i)) (hptr : f.fptr < 2 ^ 32)
    (hofs : ofs ≠ 0) :
    Started g i v chains f ofs (startSeek g v f ofs) := by
  unfold startSeek
  by_cases hsame : 0 < f.fptr ∧ (f.fptr - 1) / g.bcs ≤ (ofs - 1) / g.bcs
  · rw [if_pos hsame, clusterStart_eq g (Nat.le_of_lt hptr)]
    have hcurrent := hf.current (Nat.ne_of_gt hsame.1)
    have hreach := hf.reach
    rw [div_bcs] at hcurrent
    rw [mul_bcs] at hreach
    have hlt : (f.fptr - 1) / g.bcs < (chains i).length := by
      refine Nat.div_lt_of_lt_mul ?_
      rw [Nat.mul_comm]
      omega
    have hstart : (f.fptr - 1) / g.bcs * g.bcs ≤ (ofs - 1) / g.bcs * g.bcs :=
      Nat.mul_le_mul_right _ hsame.2
    have hdiv := Nat.div_mul_le_self (ofs - 1) g.bcs
    exact .set ⟨Moved.refl hs, fun _ _ _ => rfl, rfl, hf.start, hlt, hcurrent⟩ (by omega)
  rw [if_neg hsame]
  by_cases hnew : f.sclust = 0
  swap
  · rw [if_neg hnew]
    have hsome : chains i ≠ [] := fun h => hnew (hf.start.trans ((head_eq_zero_iff hs).mpr h))
    have hhead : f.sclust = (chains i).getD 0 0 := by
      rw [hf.start]
      cases chains i <;> rfl
    refine .set (k := 0) ⟨Moved.refl hs, fun _ _ _ => rfl, ?_, hf.start,
      List.length_pos_iff.mpr hsome, hhead⟩ (by omega)
    rw [Nat.zero_mul]
  rw [if_pos hnew]
  have hnone := (head_eq_zero_iff hs (i := i)).mp (hf.start ▸ hnew)
  obtain ⟨chains', hm, hview, hout⟩ := created_walk (createChain_created hs.coherent 0) hs
    (hwhole hnone) (Or.inl ⟨rfl, hnone⟩) (Or.inl ⟨hnone, rfl⟩)
  rcases hnext : createChain g v 0 with ⟨clst, v'⟩
  rw [hnext] at hm hview hout
  obtain ⟨hcl, hlt, hval⟩ | ⟨rfl, ⟨rfl, -, hused⟩ | ⟨rfl, hbad⟩ | ⟨rfl, hbad⟩⟩ := hout
  · have hlow : 2 ≤ clst := hcl.1
    have herr : clst ≠ diskError := fun h => not_isCluster_diskError g (h ▸ hcl)
    have hval' : clst = (chains' i).getD 0 0 := hval
    simp only [if_neg (show ¬clst = 1 by omega), if_neg herr]
    refine .set (k := 0) ⟨hm, hview, ?_, ?_, hlt, hval'⟩ (by omega)
    · rw [Nat.zero_mul]
    · show clst = _
      rw [hval']
      cases chains' i <;> rfl
  · simp only [if_neg (show ¬(0 : Nat) = 1 by decide),
      if_neg (show ¬(0 : Nat) = diskError by decide)]
    exact .full hm hview hnone hused
  · simp only [if_true]
    exact .aborted (by decide) hm hview fun _ => hbad
  · simp only [if_neg (show ¬diskError = 1 by decide), if_true]
    exact .aborted (by decide) hm hview fun hr => absurd hr hbad

/-! ## The end of the walk -/

/-- What a seek leaves of the file. -/
structure Carried (g : Geometry) (i : ι) (v : Volume) (chains : ι → List Nat) (f : File)
    (v' : Volume) (chains' : ι → List Nat) (f' : File) : Prop where
  moved : Moved g i v chains v' chains'
  same : f' = { f with
    dirty := f'.dirty
    fptr := f'.fptr
    sclust := f'.sclust
    clust := f'.clust
    dsect := f'.dsect
    buf := f'.buf }
  held : f'.Held g (chains' i)
  bytes : ∀ p, p < (chains i).length * g.bcs →
    f'.byte g v' (chains' i) p = f.byte g v (chains i) p

/-- What it comes to. -/
inductive Sought (g : Geometry) (i : ι) (v : Volume) (chains : ι → List Nat) (f : File)
    (ofs : Nat) : Flow × Volume × File → Prop
  | placed {v' : Volume} {chains' : ι → List Nat} {f' : File}
      (hc : Carried g i v chains f v' chains' f') (hready : f'.Ready g v' (chains' i))
      (hptr : f'.fptr = ofs ∨ (f.canWrite = true ∧ f'.fptr = (chains' i).length * g.bcs ∧
        f'.fptr < ofs ∧ ∀ c, g.links v' c ≠ .free)) : Sought g i v chains f ofs (.go, v', f')
  | aborted {res : FResult} {v' : Volume} {chains' : ι → List Nat} {f' : File} (hres : res ≠ .ok)
      (hc : Carried g i v chains f v' chains' f') (hwhy : v.disk.Reliable → Damaged g v) :
      Sought g i v chains f ofs (.abort res, v', f')

/-- The file as it was, in a volume with another table. -/
theorem carried_of_table (hs : Sound g v chains) (hf : f.Ready g v (chains i))
    (hm : Moved g i v chains v' chains')
    (hview : ∀ s, g.home s → ¬g.InTable s → v'.view s = v.view s)
    (hsame : f' = { f with fptr := f'.fptr, sclust := f'.sclust, clust := f'.clust })
    (hstart : f'.sclust = (chains' i).headD 0) :
    Carried g i v chains f v' chains' f' ∧ Buffered g v' f' (chains' i) := by
  obtain ⟨hbuf, hsector⟩ := carried_sectors hs hm hview hf
  have hbuf' : Buffered g v' f' (chains' i) := by
    rw [hsame]
    exact ⟨hbuf.placed, hbuf.lost, hbuf.clean⟩
  refine ⟨⟨hm, ?_, ⟨hstart, ?_, hbuf'.placed, hbuf'.lost⟩, fun p hp => ?_⟩, hbuf'⟩
  · rw [hsame]
  · rw [hsame]
    exact room_of_length hm.length_le hf.room
  · rw [← mul_bcs] at hp
    rw [hsame]
    exact congrArg (byteIn · p) (hsector _ (by omega))

theorem carried_rewound (hs : Sound g v chains) (hf : f.Ready g v (chains i))
    (hm : Moved g i v chains v' chains)
    (hview : ∀ s, g.home s → ¬g.InTable s → v'.view s = v.view s) :
    Carried g i v chains f v' chains { f with fptr := 0 } ∧
      Buffered g v' { f with fptr := 0 } (chains i) :=
  carried_of_table hs hf hm hview rfl hf.start

/-- A pointer behind the start of cluster `k`, in the cluster or at its end. -/
theorem ready_behind {chain : List Nat} (hf : f.Held g chain) (hb : Buffered g v f chain)
    (hk : k < chain.length) (hclust : f.clust = chain.getD k 0) (hpos : 0 < ofs)
    (hfit : ofs ≤ g.bcs) (hptr : f.fptr = k * g.bcs + ofs)
    (hhere : f.fptr % 512 ≠ 0 → f.dsect = g.sectorNo chain (f.fptr / 512)) :
    f.Ready g v chain := by
  refine ⟨hf, ?_, fun _ => ?_, hhere, hb.clean⟩
  · have hend := Nat.mul_le_mul_right g.bcs (Nat.succ_le_of_lt hk)
    rw [Nat.succ_mul] at hend
    rw [mul_bcs, hptr]
    omega
  · have hindex : (f.fptr - 1) / g.bcs = k := by
      refine Nat.div_eq_of_lt_le ?_ ?_
      · omega
      · rw [Nat.succ_mul]
        omega
    rw [div_bcs, hindex]
    exact hclust

/-- The sector of a place inside of cluster `k`. -/
theorem sectorNo_behind (chain : List Nat) (hlt : ofs < g.bcs) :
    g.sectorNo chain ((k * g.bcs + ofs) / 512) = clust2sect g (chain.getD k 0) + ofs / 512 := by
  have hbcs : g.bcs = g.csize * 512 := rfl
  have hsect : (k * g.bcs + ofs) / 512 = k * g.csize + ofs / 512 := by
    rw [← mul_bcs]
    omega
  have hin : ofs / 512 < g.csize := by omega
  have hindex : (k * g.csize + ofs / 512) / g.csize = k := by
    refine Nat.div_eq_of_lt_le (Nat.le_add_right ..) ?_
    rw [Nat.succ_mul]
    omega
  have hmod : (k * g.csize + ofs / 512) % g.csize = ofs / 512 := by
    rw [Nat.mul_comm, Nat.mul_add_mod, Nat.mod_eq_of_lt hin]
  rw [hsect, Geometry.sectorNo, hindex, hmod]

theorem land_sought {v₁ : Volume} {chains₁ : ι → List Nat} {f₁ : File} {total : Nat}
    (hs : Sound g v chains) (hf : f.Ready g v (chains i))
    (hw : Walking g i v chains f k v₁ chains₁ f₁) (hpos : 0 < ofs) (hfit : ofs ≤ g.bcs)
    (hptr : k * g.bcs + ofs = total ∨ (f.canWrite = true ∧
      k * g.bcs + ofs = (chains₁ i).length * g.bcs ∧ k * g.bcs + ofs < total ∧
        ∀ c, g.links v₁ c ≠ .free)) :
    Sought g i v chains f total (land g v₁ f₁ ofs) := by
  have hbcs : g.bcs = g.csize * 512 := rfl
  have hfptr : (f₁.advance ofs).fptr = k * g.bcs + ofs := by
    rw [hw.same]
    rfl
  have hcut : (k * g.bcs + ofs) % 512 = ofs % 512 := by
    rw [← mul_bcs]
    omega
  have hsame : f₁.advance ofs = { f with
      fptr := (f₁.advance ofs).fptr
      sclust := (f₁.advance ofs).sclust
      clust := (f₁.advance ofs).clust } := by
    rw [hw.same]
    rfl
  obtain ⟨hc, hb⟩ := carried_of_table hs hf hw.moved hw.view hsame hw.start
  have hs₁ := hw.moved.sound
  unfold land
  rw [hfptr, hcut]
  by_cases hin : ofs % 512 = 0
  · rw [if_neg fun h => h.1 hin, if_neg fun h => h hin]
    refine .placed hc (ready_behind hc.held hb hw.within hw.cluster hpos hfit hfptr
      fun h => absurd ?_ h) (hfptr.symm ▸ hptr)
    rw [hfptr, hcut]
    exact hin
  have hlt : ofs < g.bcs := by omega
  have hk := hw.within
  have hclust : f₁.clust = (chains₁ i)[k] := by
    rw [hw.cluster, List.getD_eq_getElem _ _ hk]
  have hsect : clust2sect g f₁.clust + ofs / 512 =
      g.sectorNo (chains₁ i) ((k * g.bcs + ofs) / 512) := by
    rw [sectorNo_behind _ hlt, hw.cluster]
  have hown : g.Owns (chains₁ i) (clust2sect g f₁.clust + ofs / 512) := by
    refine ⟨f₁.clust, hclust ▸ List.getElem_mem hk, Nat.le_add_right .., ?_⟩
    omega
  have hzero : clust2sect g f₁.clust ≠ 0 := by
    have hcl := hs₁.isCluster (i := i) (List.getElem_mem hk)
    have hfirst : g.InCluster (chains₁ i)[k] (clust2sect g (chains₁ i)[k]) :=
      ⟨Nat.le_refl _, Nat.lt_add_of_pos_right g.csize_pos⟩
    rw [hclust]
    exact (hfirst.offTable hcl).2.2.1
  rw [if_neg fun h => hzero h.2, if_pos hin, if_pos hin]
  obtain ⟨v₂, f₂, hm, hlinks, hsame₂, hplaced, hlost, hsector, ⟨hrun, hat, hb₂⟩ |
    ⟨hrun, hbad⟩⟩ := loadBuffer_cases hs₁ hb hown
  all_goals
    have hheld : f₂.Held g (chains₁ i) := by
      refine ⟨?_, ?_, hplaced, hlost⟩
      · rw [hsame₂]; exact hc.held.start
      · rw [hsame₂]; exact hc.held.room
    have hc₂ : Carried g i v chains f v₂ chains₁ f₂ := by
      refine ⟨hw.moved.trans hm, ?_, hheld, fun p hp => ?_⟩
      · rw [hsame₂, hc.same]
      · rw [← hc.bytes p hp]
        exact congrArg (byteIn · p) (hsector _)
    rw [hrun]
  · have hfptr₂ : f₂.fptr = k * g.bcs + ofs := by
      rw [hsame₂]
      exact hfptr
    refine .placed hc₂ (ready_behind hheld hb₂ hw.within ?_ hpos hfit hfptr₂ fun _ => ?_) ?_
    · rw [hsame₂]
      exact hw.cluster
    · rw [hat, hfptr₂, hsect]
    · rw [hfptr₂, hlinks]
      exact hptr
  · exact .aborted (by decide) hc₂ fun hr => absurd (hr.after hw.moved.after) hbad

theorem seekTo_sought [DecidableEq ι] (hs : Sound g v chains)
    (hwhole : f.canWrite = true → Whole g v) (hf : f.Ready g v (chains i))
    (hptr : f.fptr < 2 ^ 32)
    (hroom : f.canWrite = false → ofs ≤ (chains i).length * g.bcs) :
    Sought g i v chains f ofs (seekTo g v f ofs) := by
  unfold seekTo
  by_cases hofs : ofs = 0
  · rw [if_pos hofs]
    obtain ⟨hc, hb⟩ := carried_rewound hs hf (Moved.refl hs) fun _ _ _ => rfl
    refine .placed hc ⟨hc.held, Nat.zero_le _, fun h => absurd rfl h, fun h => absurd rfl h,
      hb.clean⟩ (Or.inl hofs.symm)
  rw [if_neg hofs]
  have hgrant : chains i = [] → f.canWrite = true := by
    intro hnone
    cases hcan : f.canWrite with
    | true => rfl
    | false =>
        have hend := hroom hcan
        rw [hnone, List.length_nil, Nat.zero_mul] at hend
        exact absurd (Nat.le_zero.mp hend) hofs
  have h := startSeek_started hs (fun hnone => hwhole (hgrant hnone)) hf hptr hofs
  generalize startSeek g v f ofs = out at h
  cases h with
  | @set k v₁ chains₁ f₁ hw hlow =>
      have hk := hw.within
      have hcl : g.IsCluster f₁.clust := by
        rw [hw.cluster, List.getD_eq_getElem _ _ hk]
        exact hw.moved.sound.isCluster (List.getElem_mem hk)
      have hclust : f₁.clust ≠ 0 := by
        have hlow := hcl.1
        omega
      have hstart : f₁.fptr = k * g.bcs := by rw [hw.same]
      have hsum : k * g.bcs + (ofs - k * g.bcs) = ofs := by omega
      have hrest : 0 < ofs - k * g.bcs := by omega
      have hloop := seekLoop_walked hw hwhole hrest fun h => by
        rw [hsum]
        exact hroom h
      rw [hsum] at hloop
      simp only [if_neg hclust, hstart]
      generalize seekLoop g v₁ f₁ (ofs - k * g.bcs) = out at hloop
      cases hloop with
      | arrived hw' hpos hfit hsum' => exact land_sought hs hf hw' hpos hfit (Or.inl hsum')
      | full hw' hwrite hend hless hused =>
          refine land_sought hs hf hw' (bcs_pos g) (Nat.le_refl _)
            (Or.inr ⟨hwrite, ?_, hless, hused⟩)
          rw [← hend, Nat.succ_mul]
      | aborted hres hw' hwhy =>
          obtain ⟨hc, -⟩ := carried_of_table hs hf hw'.moved hw'.view
            (by rw [hw'.same]) hw'.start
          exact .aborted hres hc hwhy
  | @full v₁ hm hview hnone hused =>
      have hwrite := hgrant hnone
      generalize hf₁ : ({ f with fptr := 0, sclust := 0, clust := 0 } : File) = f₁
      have hstart : f₁.sclust = (chains i).headD 0 := by
        rw [← hf₁, hnone]
        rfl
      have hzero : f₁.fptr = 0 ∧ f₁.clust = 0 := by
        rw [← hf₁]
        exact ⟨rfl, rfl⟩
      obtain ⟨hc, hb⟩ := carried_of_table hs hf hm hview (by rw [← hf₁]) hstart
      simp only [if_pos hzero.2]
      refine .placed hc ⟨hc.held, ?_, fun h => absurd hzero.1 h, fun h => ?_, hb.clean⟩
        (Or.inr ⟨hwrite, ?_, ?_, hused⟩)
      · rw [hzero.1]
        exact Nat.zero_le _
      · rw [hzero.1] at h
        exact absurd rfl h
      · rw [hzero.1, hnone, List.length_nil, Nat.zero_mul]
      · rw [hzero.1]
        exact Nat.pos_of_ne_zero hofs
  | aborted hres hm hview hwhy =>
      exact .aborted hres (carried_rewound hs hf hm hview).1 hwhy

/-! ## `f_lseek` on the bytes -/

/-- What `f_lseek` comes to, in bytes. -/
inductive Landed (g : Geometry) (i : ι) (v : Volume) (chains : ι → List Nat) (f : File)
    (ofs : Nat) : FResult × Volume × File → Prop
  | placed {v' : Volume} {chains' : ι → List Nat} {f' : File}
      (htried : Tried g i v chains f v' chains' f') (hfine : f'.err = .ok)
      (hsize : f'.fsize = max f.fsize f'.fptr)
      (hcontent : (f'.content g v' (chains' i)).take f.fsize = f.content g v (chains i))
      (hptr : f'.fptr = (if f.canWrite then ofs else min ofs f.fsize) ∨
        (f.canWrite = true ∧ f'.fptr < ofs ∧ f'.fptr = (chains' i).length * g.bcs ∧
          ∀ c, g.links v' c ≠ .free)) : Landed g i v chains f ofs (.ok, v', f')
  | failed {res : FResult} {v' : Volume} {chains' : ι → List Nat} {f' : File} (hres : res ≠ .ok)
      (htried : Tried g i v chains f v' chains' f') (herr : f'.err = res)
      (hcontent : f'.content g v' (chains' i) = f.content g v (chains i))
      (hwhy : v.disk.Reliable → Damaged g v) : Landed g i v chains f ofs (res, v', f')

theorem stretch_same (f : File) : f.stretch = { f with
    changed := f.stretch.changed
    fsize := max f.fsize f.fptr } := by
  unfold File.stretch
  split
  · next h => rw [Nat.max_eq_right (Nat.le_of_lt h)]
  · next h => rw [Nat.max_eq_left (Nat.le_of_not_lt h)]

theorem Carried.content (h : Carried g i v chains f v' chains' f') (hf : f.Held g (chains i))
    (hsize : f.fsize ≤ f''.fsize)
    (hbyte : ∀ p, f''.byte g v' (chains' i) p = f'.byte g v' (chains' i) p) :
    (f''.content g v' (chains' i)).take f.fsize = f.content g v (chains i) := by
  rw [File.content, File.content, ← List.map_take, List.take_range, Nat.min_eq_left hsize]
  refine List.map_congr_left fun p hp => ?_
  have hlt : p < f.fsize := List.mem_range.mp hp
  have hroom := hf.room
  rw [mul_bcs] at hroom
  rw [hbyte, h.bytes p (by omega)]

theorem fLseek_landed [DecidableEq ι] (hs : Sound g v chains)
    (hwhole : f.canWrite = true → Whole g v) (hu : Usable g v f (chains i))
    (hopen : f.attached = true ∧ f.err = .ok) (hofs : ofs < 2 ^ 32) :
    Landed g i v chains f ofs (fLseek g v f ofs) := by
  have hin := hu.inside hopen.2
  have hsize := hu.size
  have hroom := hu.held.room
  rw [mul_bcs] at hroom
  unfold fLseek
  rw [if_neg (by simp [hopen]), if_neg (by simp [hopen])]
  have hto : (if f.fsize < ofs ∧ f.canWrite = false then f.fsize else ofs) =
      if f.canWrite then ofs else min ofs f.fsize := by
    cases f.canWrite with
    | true => simp
    | false =>
        rw [Nat.min_def]
        simp only [and_true, Bool.false_eq_true, if_false]
        split <;> split <;> omega
  rw [hto]
  generalize hgoal : (if f.canWrite then ofs else min ofs f.fsize) = goal
  have hle : goal ≤ ofs := by
    rw [← hgoal]
    split
    · exact Nat.le_refl _
    · exact Nat.min_le_left ..
  have h := seekTo_sought hs hwhole (hu.ready hopen.2) (show f.fptr < 2 ^ 32 by omega)
    fun hcan => show goal ≤ _ by
      rw [← hgoal, hcan]
      exact Nat.le_trans (Nat.min_le_right ..) hroom
  generalize seekTo g v f goal = out at h
  cases h with
  | @placed v' chains' f' hc hready hptr =>
      have hold : f'.fsize = f.fsize := by rw [hc.same]
      have hfine : f'.err = .ok := by
        rw [hc.same]
        exact hopen.2
      have hbound : f'.fptr ≤ goal := by omega
      have hsame := stretch_same f'
      show Landed g i v chains f ofs (.ok, v', f'.stretch)
      generalize f'.stretch = f'' at hsame
      have hlong : f''.fsize = max f.fsize f'.fptr := by rw [hsame, hold]
      have hat : f''.fptr = f'.fptr := by rw [hsame]
      have hready' : f''.Ready g v' (chains' i) := by
        rw [hsame]
        exact ⟨⟨hready.start, Nat.max_le.mpr ⟨hready.room, hready.reach⟩, hready.placed,
          hready.lost⟩, hready.reach, hready.current, hready.here, hready.clean⟩
      refine .placed ⟨hc.moved, ⟨hready'.toHeld, fun _ => hready', fun _ => ?_, ?_⟩, ?_⟩ ?_ ?_
        (hc.content hu.held ?_ fun p => ?_) ?_
      · omega
      · omega
      · rw [hsame, hc.same]
      · rw [hsame]
        exact hfine
      · rw [hlong, hat]
      · omega
      · rw [hsame]
        rfl
      · rw [hgoal, hat]
        refine hptr.imp_right fun h => ⟨h.1, ?_, h.2.1, h.2.2.2⟩
        omega
  | @aborted res v' chains' f' hres hc hwhy =>
      have hold : f'.fsize = f.fsize := by rw [hc.same]
      have hall := hc.content hu.held (Nat.le_of_eq hold.symm) fun p =>
        show ({ f' with err := res } : File).byte g v' (chains' i) p = _ from rfl
      rw [List.take_of_length_le (by rw [length_content]; exact Nat.le_of_eq hold)] at hall
      refine .failed hres ⟨hc.moved, ⟨⟨hc.held.start, hc.held.room, hc.held.placed, hc.held.lost⟩,
        fun hok => absurd hok hres, fun hok => absurd hok hres, ?_⟩, ?_⟩ rfl hall hwhy
      · show f'.fsize < _
        omega
      · rw [hc.same]

/-- `f_lseek` goes where it was told, in a file open for reading only no further than its
end, in one open for writing no further than the volume has room, with the size going along.
What the file held stays, and so does every other file, whether or not there was an error,
which only a failed transfer or a damaged table makes. -/
theorem fLseek_seeks [DecidableEq ι] (hs : Sound g v chains)
    (hwhole : f.canWrite = true → Whole g v) (hu : Usable g v f (chains i))
    (hopen : f.attached = true ∧ f.err = .ok) (hofs : ofs < 2 ^ 32) :
    ∃ res v' chains' f', fLseek g v f ofs = (res, v', f') ∧
      Sound g v' chains' ∧ Usable g v' f' (chains' i) ∧
      (∀ j, j ≠ i → chains' j = chains j ∧
        ∀ s, g.Owns (chains j) s → v'.disk.data s = v.disk.data s) ∧
      (f'.content g v' (chains' i)).take f.fsize = f.content g v (chains i) ∧
      (res = .ok → f'.fsize = max f.fsize f'.fptr ∧
        (f'.fptr = (if f.canWrite then ofs else min ofs f.fsize) ∨
          (f.canWrite = true ∧ f'.fptr < ofs ∧ f'.fptr = (chains' i).length * g.bcs ∧
            ∀ c, g.links v' c ≠ .free))) ∧
      (res ≠ .ok → f'.err = res ∧ f'.fsize = f.fsize ∧ (v.disk.Reliable → Damaged g v)) := by
  have h := fLseek_landed hs hwhole hu hopen hofs
  rcases hrun : fLseek g v f ofs with ⟨res, v', f'⟩
  rw [hrun] at h
  cases h with
  | @placed _ chains' _ htried hfine hsize hcontent hptr =>
      have hm := htried.moved
      exact ⟨_, _, chains', _, rfl, hm.sound, htried.usable, hm.rest hs, hcontent,
        fun _ => ⟨hsize, hptr⟩, fun hres => absurd rfl hres⟩
  | @failed _ _ chains' _ hres htried herr hcontent hwhy =>
      have hm := htried.moved
      have hlen := congrArg List.length hcontent
      rw [length_content, length_content] at hlen
      refine ⟨_, _, chains', _, rfl, hm.sound, htried.usable, hm.rest hs, ?_,
        fun hok => absurd hok hres, fun _ => ⟨herr, hlen, hwhy⟩⟩
      rw [hcontent, List.take_of_length_le (Nat.le_of_eq (length_content ..))]

theorem fLseek_on_blank :
    (∃ v' f', fLseek floppy (mounted blank) (.fresh 3 0 1) 700 = (.ok, v', f') ∧
        f'.fptr = 700 ∧ f'.fsize = 700) ∧
      ∃ v' f', fLseek floppy (mounted (faulty 1)) (.fresh 3 0 1) 700 = (.diskErr, v', f') ∧
        f'.fsize = 0 := by
  have hofs : 700 < 2 ^ 32 := by decide
  constructor
  · have hres : (fLseek floppy (mounted blank) (.fresh 3 0 1) 700).1 = .ok ∧
        (fLseek floppy (mounted blank) (.fresh 3 0 1) 700).2.2.fptr = 700 := by decide +kernel
    obtain ⟨res, v', chains', f', hrun, -, -, -, -, hok, -⟩ :=
      fLseek_seeks (i := ()) blank_sound (fun _ => floppy_whole _) (fresh_usable 3 0 1)
        ⟨rfl, rfl⟩ hofs
    rw [hrun] at hres
    obtain ⟨rfl, hptr⟩ := hres
    have hptr' : f'.fptr = 700 := hptr
    refine ⟨v', f', hrun, hptr', ?_⟩
    rw [(hok rfl).1, hptr']
    rfl
  · have hres : (fLseek floppy (mounted (faulty 1)) (.fresh 3 0 1) 700).1 = .diskErr := by
      decide +kernel
    obtain ⟨res, v', chains', f', hrun, -, -, -, -, -, herr⟩ :=
      fLseek_seeks (i := ()) (mounted_sound (.empty _))
        (fun _ => floppy_whole (mounted (faulty 1))) (fresh_usable 3 0 1) ⟨rfl, rfl⟩ hofs
    rw [hrun] at hres
    cases hres
    exact ⟨v', f', hrun, (herr (by decide)).2.1⟩

end Fat
end ImuFirmware
