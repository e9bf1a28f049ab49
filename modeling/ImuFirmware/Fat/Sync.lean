/-
`f_sync` and `f_close`: what reaches the drive.

`f_sync` writes the buffer back, brings the directory entry up to date through the window,
and has `sync_fs` write the window and, on FAT32, the FSINFO sector.  If it succeeds after
a change, the drive by itself holds the file.
-/
import ImuFirmware.Fat.Content

namespace ImuFirmware
namespace Fat

open Storage

/-! ## The directory entry -/

/-- `ld_clust`. -/
def ldClust (g : Geometry) (s : Sector) (dir : Nat) : Nat :=
  if g.fsType = .fat32 then ldWord s (dir + 26) ||| ldWord s (dir + 20) <<< 16
  else ldWord s (dir + 26)

/-- `st_clust`. -/
def stClust (dir cl : Nat) (s : Sector) : Sector :=
  stWord (dir + 20) (cl >>> 16) (stWord (dir + 26) cl s)

/-- What `f_sync` does to the directory sector, at the time `tm`. -/
def updateEntry (f : File) (tm : Nat) (s : Sector) : Sector :=
  let s := setByte (f.dirPtr + 11) (byteAt s (f.dirPtr + 11) ||| 0x20) s
  let s := stDword (f.dirPtr + 28) f.fsize s
  let s := stClust f.dirPtr f.sclust s
  let s := stDword (f.dirPtr + 22) tm s
  stWord (f.dirPtr + 18) 0 s

/-- The FSINFO sector of `sync_fs`. -/
def fsInfo (v : Volume) : Sector :=
  stDword 492 v.lastClust (stDword 488 v.freeClust (stDword 484 0x61417272
    (stDword 0 0x41615252 (stWord 510 0xAA55 fun _ => 0))))

/-- The update of FSINFO, whose write is not looked at. -/
def writeInfo (g : Geometry) (v : Volume) : Volume :=
  if g.fsType = .fat32 ∧ v.fsiFlag = 1 then
    { v with
      win := fsInfo v
      winsect := g.volbase + 1
      disk := (v.disk.write (fun _ => fsInfo v) (g.volbase + 1) 1).2
      fsiFlag := 0 }
  else v

def syncFs (g : Geometry) (v : Volume) : FResult × Volume :=
  match syncWindow g v with
  | (.ok, v) =>
      (if (writeInfo g v).disk.sync.1 then .ok else .diskErr,
        { writeInfo g v with disk := (writeInfo g v).disk.sync.2 })
  | (res, v) => (res, v)

/-- `f_sync` after the write-back of the buffer. -/
def syncEntry (g : Geometry) (tm : Nat) (v : Volume) (f : File) : FResult × Volume × File :=
  match moveWindow g v f.dirSect with
  | (.ok, v) =>
      match syncFs g (v.change (updateEntry f tm)) with
      | (res, v) => (res, v, { f with changed := false })
  | (res, v) => (res, v, f)

def fSync (g : Geometry) (tm : Nat) (v : Volume) (f : File) : FResult × Volume × File :=
  if f.attached = false then (.invalidObject, v, f)
  else if f.changed then
    match writeBack v f with
    | (.go, v, f) => syncEntry g tm v f
    | (_, v, f) => (.diskErr, v, f)
  else (.ok, v, f)

/-! ### Its bytes -/

section words

variable {s : Sector} {i j val : Nat}

theorem byteAt_setByte {x : Nat} (hi : i < 512) (hj : j < 512) :
    byteAt (setByte i x s) j = if j = i then x % 256 else byteAt s j := by
  unfold byteAt byteIn setByte
  by_cases h : j = i
  · rw [if_pos h, h, Function.update_self, FsType.toNat_byte]
  · have hne : Fin.ofNat 512 j ≠ Fin.ofNat 512 i := by
      intro he
      have : j % 512 = i % 512 := congrArg Fin.val he
      omega
    rw [if_neg h, Function.update_of_ne hne]

theorem byteAt_stWord_of_ne (hi : i + 1 < 512) (hj : j < 512) (h : j < i ∨ i + 1 < j) :
    byteAt (stWord i val s) j = byteAt s j := by
  rw [stWord, byteAt_setByte (by omega) hj, if_neg (by omega), byteAt_setByte (by omega) hj,
    if_neg (by omega)]

/-- A double word is two words. -/
theorem stDword_eq_words (i val : Nat) (s : Sector) :
    stDword i val s = stWord (i + 2) (val >>> 16) (stWord i val s) := by
  show _ = setByte (i + 3) (val >>> 16 >>> 8) (setByte (i + 2) (val >>> 16) (stWord i val s))
  rw [← Nat.shiftRight_add]
  rfl

theorem ldDword_eq_words (s : Sector) (i : Nat) :
    ldDword s i = ldWord s (i + 2) * 2 ^ 16 + ldWord s i := by
  have hindex : i + 2 + 1 = i + 3 := rfl
  rw [ldDword_eq, ldWord_eq, ldWord_eq, hindex]
  omega

theorem byteAt_stDword_of_ne (hi : i + 3 < 512) (hj : j < 512) (h : j < i ∨ i + 3 < j) :
    byteAt (stDword i val s) j = byteAt s j := by
  rw [stDword_eq_words, byteAt_stWord_of_ne (by omega) hj (by omega),
    byteAt_stWord_of_ne (by omega) hj (by omega)]

theorem ldWord_stWord (hi : i + 1 < 512) : ldWord (stWord i val s) i = val % 2 ^ 16 := by
  rw [ldWord_eq, stWord, byteAt_setByte hi hi, if_pos rfl, byteAt_setByte hi (by omega),
    if_neg (by omega), byteAt_setByte (by omega) (by omega), if_pos rfl,
    Nat.shiftRight_eq_div_pow]
  omega

theorem ldWord_congr {s' : Sector} (h : ∀ k, k < 2 → byteAt s' (i + k) = byteAt s (i + k)) :
    ldWord s' i = ldWord s i := by
  have h0 := h 0 (by omega)
  rw [Nat.add_zero] at h0
  rw [ldWord_eq, ldWord_eq, h0, h 1 (by omega)]

theorem ldDword_congr {s' : Sector} (h : ∀ k, k < 4 → byteAt s' (i + k) = byteAt s (i + k)) :
    ldDword s' i = ldDword s i := by
  have h0 := h 0 (by omega)
  rw [Nat.add_zero] at h0
  rw [ldDword_eq, ldDword_eq, h0, h 1 (by omega), h 2 (by omega), h 3 (by omega)]

theorem ldWord_stWord_of_ne (hi : i + 1 < 512) (hj : j + 1 < 512)
    (h : j + 1 < i ∨ i + 1 < j) : ldWord (stWord i val s) j = ldWord s j :=
  ldWord_congr fun _ _ => byteAt_stWord_of_ne hi (by omega) (by omega)

theorem ldDword_stDword (hi : i + 3 < 512) : ldDword (stDword i val s) i = val % 2 ^ 32 := by
  have hsplit : val % 2 ^ 32 = val % 2 ^ 16 + 2 ^ 16 * (val / 2 ^ 16 % 2 ^ 16) := by
    have hsquare : 2 ^ 32 = 2 ^ 16 * 2 ^ 16 := rfl
    rw [hsquare, Nat.mod_mul]
  rw [ldDword_eq_words, stDword_eq_words, ldWord_stWord (by omega),
    ldWord_stWord_of_ne (by omega) (by omega) (by omega), ldWord_stWord (by omega), hsplit,
    Nat.shiftRight_eq_div_pow, Nat.mul_comm, Nat.add_comm]

theorem ldWord_stDword_of_ne (hi : i + 3 < 512) (hj : j + 1 < 512)
    (h : j + 1 < i ∨ i + 3 < j) : ldWord (stDword i val s) j = ldWord s j :=
  ldWord_congr fun _ _ => byteAt_stDword_of_ne hi (by omega) (by omega)

theorem ldDword_stWord_of_ne (hi : i + 1 < 512) (hj : j + 3 < 512)
    (h : j + 3 < i ∨ i + 1 < j) : ldDword (stWord i val s) j = ldDword s j :=
  ldDword_congr fun _ _ => byteAt_stWord_of_ne hi (by omega) (by omega)

theorem ldDword_stDword_of_ne (hi : i + 3 < 512) (hj : j + 3 < 512)
    (h : j + 3 < i ∨ i + 3 < j) : ldDword (stDword i val s) j = ldDword s j :=
  ldDword_congr fun _ _ => byteAt_stDword_of_ne hi (by omega) (by omega)

end words

section entry

variable {g : Geometry} {f : File} {tm j : Nat} {s : Sector}

/-- The other entries of the sector stay, and the name in this one. -/
theorem byteAt_updateEntry (hfit : f.dirPtr + 32 ≤ 512) (hj : j < 512)
    (hout : j < f.dirPtr + 11 ∨ f.dirPtr + 32 ≤ j) :
    byteAt (updateEntry f tm s) j = byteAt s j := by
  unfold updateEntry stClust
  rw [byteAt_stWord_of_ne (by omega) hj (by omega), byteAt_stDword_of_ne (by omega) hj (by omega),
    byteAt_stWord_of_ne (by omega) hj (by omega), byteAt_stWord_of_ne (by omega) hj (by omega),
    byteAt_stDword_of_ne (by omega) hj (by omega), byteAt_setByte (by omega) hj,
    if_neg (by omega)]

/-- The size in the entry is the file's. -/
theorem updateEntry_size (hfit : f.dirPtr + 32 ≤ 512) (hsize : f.fsize < 2 ^ 32) :
    ldDword (updateEntry f tm s) (f.dirPtr + 28) = f.fsize := by
  unfold updateEntry stClust
  rw [ldDword_stWord_of_ne (by omega) (by omega) (by omega),
    ldDword_stDword_of_ne (by omega) (by omega) (by omega),
    ldDword_stWord_of_ne (by omega) (by omega) (by omega),
    ldDword_stWord_of_ne (by omega) (by omega) (by omega), ldDword_stDword (by omega)]
  exact Nat.mod_eq_of_lt hsize

/-- The cluster in the entry is the file's first. -/
theorem updateEntry_clust (hfit : f.dirPtr + 32 ≤ 512)
    (hclust : f.sclust < g.fsType.maxEntries) :
    ldClust g (updateEntry f tm s) f.dirPtr = f.sclust := by
  have hlow : ldWord (updateEntry f tm s) (f.dirPtr + 26) = f.sclust % 2 ^ 16 := by
    unfold updateEntry stClust
    rw [ldWord_stWord_of_ne (by omega) (by omega) (by omega),
      ldWord_stDword_of_ne (by omega) (by omega) (by omega),
      ldWord_stWord_of_ne (by omega) (by omega) (by omega), ldWord_stWord (by omega)]
  have hhigh : ldWord (updateEntry f tm s) (f.dirPtr + 20) = f.sclust / 2 ^ 16 % 2 ^ 16 := by
    unfold updateEntry stClust
    rw [ldWord_stWord_of_ne (by omega) (by omega) (by omega),
      ldWord_stDword_of_ne (by omega) (by omega) (by omega), ldWord_stWord (by omega),
      Nat.shiftRight_eq_div_pow]
  unfold ldClust
  rw [hlow, hhigh]
  cases ht : g.fsType <;> rw [ht] at hclust <;> simp only [FsType.maxEntries] at hclust
  · rw [if_neg (by decide)]
    omega
  · rw [if_neg (by decide)]
    omega
  · rw [if_pos rfl, Nat.or_comm, ← Nat.shiftLeft_add_eq_or_of_lt (by omega), Nat.shiftLeft_eq]
    omega

end entry

/-! ## The window on behalf of a directory -/

/-- The window has been to the directory sector `d`, to FSINFO, or nowhere, and no more than
`d` has changed of what a reader finds. -/
structure Through (g : Geometry) (d : Nat) (v v' : Volume) : Prop where
  coherent : g.Coherent v'
  after : v.disk.After v'.disk
  placed : v'.winsect = v.winsect ∨ g.parked v'.winsect ∨ v'.winsect = d
  view : ∀ s, g.home s → s ≠ d → v'.view s = v.view s
  mirrored : v.disk.Reliable → g.Mirrored v → g.Mirrored v'

variable {ι : Type} {g : Geometry} {i : ι} {v v' v'' : Volume} {chains : ι → List Nat}
  {f f' : File} {d tm : Nat}

theorem Through.trans (h : Through g d v v') (h' : Through g d v' v'') : Through g d v v'' where
  coherent := h'.coherent
  after := h.after.trans h'.after
  placed := by
    obtain hp | hp := h'.placed
    · rw [hp]; exact h.placed
    · exact Or.inr hp
  view s hs hne := (h'.view s hs hne).trans (h.view s hs hne)
  mirrored hr hm := h'.mirrored (hr.after h.after) (h.mirrored hr hm)

theorem through_move (hv : g.Coherent v) (hd : g.home d) :
    Through g d v (moveWindow g v d).2 ∧
      (∀ s, g.home s → (moveWindow g v d).2.view s = v.view s) ∧
      (((moveWindow g v d).1 = .ok ∧ (moveWindow g v d).2.winsect = d) ∨
        ((moveWindow g v d).1 = .diskErr ∧ ¬v.disk.Reliable)) := by
  obtain ⟨hcoh, hafter, -, hview⟩ := moveWindow_home hv hd
  rw [moveWindow_eq hv.winsect_lt] at hcoh hafter hview ⊢
  refine ⟨⟨hcoh, hafter, ?_, fun s hs _ => hview s hs,
    fun hr hm => Window.move_mirrored g.layout hv hr hm⟩, hview, ?_⟩
  · obtain ⟨-, h⟩ | ⟨-, -, d, -, -, h⟩ | ⟨-, -, -, junk, d, -, -, h⟩ | ⟨-, -, h⟩ :=
      Window.move_cases g.mirrors noSector v.toWindow d
    · rw [h]; exact Or.inl rfl
    · rw [h]; exact Or.inr (Or.inr rfl)
    · rw [h]; exact Or.inr (Or.inl g.parked_noSector)
    · rw [h]; exact Or.inl (Window.flush_winsect ..)
  · cases hok : (v.move g.mirrors noSector d).1 with
    | true => exact Or.inl ⟨rfl, Window.move_winsect hok⟩
    | false =>
        refine Or.inr ⟨rfl, fun hr => ?_⟩
        rw [Window.move_of_reliable g.mirrors noSector d hr] at hok
        cases hok

theorem through_change (hd : g.home d) (hwin : v.winsect = d) (e : Sector → Sector) :
    Through g d v (v.change e) := by
  refine ⟨Window.edit_coherent g.layout (hwin.symm ▸ hd) e, Drive.After.refl _, Or.inl rfl,
    fun s _ hne => ?_, fun _ hm => Window.edit_mirrored hm e⟩
  show (v.toWindow.edit e).view s = _
  rw [Window.edit_view, Function.update_of_ne (fun h => hne (h.trans hwin))]

/-- FSINFO is written where no one looks. -/
theorem through_info (hv : g.Coherent v) (hclean : v.wflag = false)
    (hinfo : g.fsType = .fat32 → g.volbase + 1 < g.fatbase) (d : Nat) :
    Through g d v (writeInfo g v) ∧ (writeInfo g v).wflag = false ∧
      ∀ s, g.home s → (writeInfo g v).view s = v.view s := by
  unfold writeInfo
  by_cases hneed : g.fsType = .fat32 ∧ v.fsiFlag = 1
  swap
  · rw [if_neg hneed]
    exact ⟨⟨hv, Drive.After.refl _, Or.inl rfl, fun _ _ _ => rfl, fun _ hm => hm⟩, hclean,
      fun _ _ => rfl⟩
  rw [if_pos hneed]
  have hat : g.Info (g.volbase + 1) := ⟨rfl, hinfo hneed.1⟩
  have hdata : ∀ s, s ≠ g.volbase + 1 →
      (v.disk.write (fun _ => fsInfo v) (g.volbase + 1) 1).2.data s = v.disk.data s := fun s hne =>
    Drive.write_data_of_outside (by omega)
  have hother : ∀ s, g.home s → s ≠ g.volbase + 1 := fun s hs he => hs.2.2 (he ▸ hat)
  have hview : ∀ s, g.home s →
      ({ v with
          win := fsInfo v
          winsect := g.volbase + 1
          disk := (v.disk.write (fun _ => fsInfo v) (g.volbase + 1) 1).2
          fsiFlag := 0 } : Volume).view s = v.view s := by
    intro s hs
    refine (Window.view_of_ne (hother s hs)).trans ((hdata s (hother s hs)).trans ?_)
    exact Window.data_of_clean g.layout hv hclean hs
  refine ⟨⟨⟨Or.inl (Or.inr hat), fun _ hsome => absurd (Or.inr hat) hsome, fun _ => hclean⟩,
    Drive.after_write .., Or.inr (Or.inl (Or.inr hat)), fun s hs _ => hview s hs,
    fun hr hm b hb hsame m hmem => ?_⟩, hclean, hview⟩
  have hcopy : m ≠ g.volbase + 1 := by
    obtain ⟨-, ht, rfl⟩ := g.mem_mirrors_iff.mp hmem
    have := ht.1
    have := hat.2
    omega
  show (v.disk.write _ _ 1).2.data m = (v.disk.write _ _ 1).2.data b
  rw [hdata m hcopy, hdata b (hother b hb)]
  exact hm b hb (fun _ => hclean) m hmem

theorem through_sync (hv : g.Coherent v) (d : Nat) :
    Through g d v (syncWindow g v).2 ∧ (∀ s, g.home s → (syncWindow g v).2.view s = v.view s) ∧
      (((syncWindow g v).1 = .ok ∧ (syncWindow g v).2.wflag = false) ∨
        ((syncWindow g v).1 = .diskErr ∧ ¬v.disk.Reliable)) := by
  rw [syncWindow_eq hv.winsect_lt]
  refine ⟨⟨Window.flush_coherent g.layout hv, Window.after_flush g.mirrors v.toWindow,
    Or.inl (Window.flush_winsect g.mirrors v.toWindow),
    fun s hs _ => Window.flush_view g.layout hv hs,
    fun hr hm => Window.flush_mirrored g.layout hv hr hm⟩,
    fun s hs => Window.flush_view g.layout hv hs, ?_⟩
  cases hok : (v.flush g.mirrors).1 with
  | true => exact Or.inl ⟨rfl, Window.flush_wflag hok⟩
  | false =>
      refine Or.inr ⟨rfl, fun hr => ?_⟩
      rw [Window.flush_of_reliable g.mirrors hr] at hok
      cases hok

theorem syncFs_cases (hv : g.Coherent v)
    (hinfo : g.fsType = .fat32 → g.volbase + 1 < g.fatbase) (d : Nat) :
    Through g d v (syncFs g v).2 ∧ (∀ s, g.home s → (syncFs g v).2.view s = v.view s) ∧
      (((syncFs g v).1 = .ok ∧ (syncFs g v).2.wflag = false) ∨
        ((syncFs g v).1 = .diskErr ∧ ¬v.disk.Reliable)) := by
  have hsync := through_sync hv d
  unfold syncFs
  rcases hres : syncWindow g v with ⟨res, v₁⟩
  rw [hres] at hsync
  obtain ⟨ht, hview, ⟨rfl, hclean⟩ | ⟨rfl, hbad⟩⟩ := hsync
  swap
  · exact ⟨ht, hview, Or.inr ⟨rfl, hbad⟩⟩
  obtain ⟨ht', hclean', hview'⟩ := through_info ht.coherent hclean hinfo d
  obtain ⟨hdata, hafter, hok⟩ := (writeInfo g v₁).disk.sync_cases
  simp only
  generalize writeInfo g v₁ = v₂ at ht' hclean' hview' hdata hafter hok
  have hsame : ∀ s, ({ v₂ with disk := v₂.disk.sync.2 } : Volume).view s = v₂.view s :=
    fun _ => rfl
  have htidy : Through g d v₂ { v₂ with disk := v₂.disk.sync.2 } :=
    ⟨⟨ht'.coherent.placed, ht'.coherent.clean, ht'.coherent.lost⟩, hafter, Or.inl rfl,
      fun s _ _ => hsame s, fun _ hm => hm⟩
  refine ⟨(ht.trans ht').trans htidy, fun s hs => (hview' s hs).trans (hview s hs), ?_⟩
  obtain hok | hbad := hok
  · exact Or.inl ⟨if_pos hok, hclean'⟩
  · by_cases hok : v₂.disk.sync.1 = true
    · exact Or.inl ⟨if_pos hok, hclean'⟩
    · exact Or.inr ⟨if_neg hok, fun hr => hbad (hr.after (ht.after.trans ht'.after))⟩

/-- Where the entry of a file lies: in a sector that is nobody's data. -/
structure Listed (g : Geometry) (v : Volume) (chains : ι → List Nat) (f : File) : Prop where
  home : g.home f.dirSect
  offTable : ¬g.InTable f.dirSect
  offData : ∀ c, ForData g v chains c → ¬g.InCluster c f.dirSect
  fits : f.dirPtr + 32 ≤ 512

/-- The sectors before the first cluster, where a root directory may lie. -/
theorem listed_root (ha : Apart (g.links v) chains) (hhome : g.home f.dirSect)
    (hoff : ¬g.InTable f.dirSect) (hlow : f.dirSect < g.database) (hfits : f.dirPtr + 32 ≤ 512) :
    Listed g v chains f :=
  ⟨hhome, hoff, fun _ hc hin => Nat.not_le_of_lt hlow (hin.bounds (hc.isCluster ha)).1, hfits⟩

/-- Such a walk of the window leaves the data of all files alone. -/
theorem Sound.through (hs : Sound g v chains) (hoff : ¬g.InTable d)
    (hdata : ∀ c, ForData g v chains c → ¬g.InCluster c d) (h : Through g d v v') :
    Sound g v' chains ∧ g.links v' = g.links v ∧
      ∀ c s, ForData g v chains c → g.InCluster c s → v'.disk.data s = v.disk.data s := by
  have hlinks : g.links v' = g.links v := links_of_table fun b hb =>
    h.view b (g.home_of_inTable hb) fun he => hoff (he ▸ hb)
  have hplaced : ∀ c, ForData g v chains c → ¬g.InCluster c v'.winsect := by
    intro c hc hin
    have hhome := (hin.offTable (hc.isCluster hs.apart)).1
    obtain hp | hp | hp := h.placed
    · exact hs.off c hc (hp ▸ hin)
    · exact g.layout.somewhere _ hhome hp
    · exact hdata c hc (hp ▸ hin)
  refine ⟨⟨h.coherent, by rw [hlinks]; exact hs.apart, fun c hc => ?_⟩,
    hlinks, fun c s hc hin => ?_⟩
  · exact hplaced c (hc.of_links hlinks)
  · have hhome := (hin.offTable (hc.isCluster hs.apart)).1
    have hd : s ≠ d := fun he => hdata c hc (he ▸ hin)
    have hw : s ≠ v.winsect := fun he => hs.off c hc (he ▸ hin)
    have hw' : s ≠ v'.winsect := fun he => hplaced c hc (he ▸ hin)
    rw [← Window.view_of_ne hw, ← Window.view_of_ne hw']
    exact h.view s hhome hd

/-! ## `f_sync` -/

/-- What `f_sync` leaves as it is, whatever comes of it. -/
structure Settled (g : Geometry) (i : ι) (v : Volume) (chains : ι → List Nat) (f : File)
    (v' : Volume) (f' : File) : Prop where
  sound : Sound g v' chains
  after : v.disk.After v'.disk
  links : g.links v' = g.links v
  usable : Usable g v' f' (chains i)
  same : f' = { f with changed := f'.changed, dirty := f'.dirty }
  bytes : ∀ p, p < (chains i).length * g.csize * 512 →
    f'.byte g v' (chains i) p = f.byte g v (chains i) p
  others : ∀ c s, ForData g v chains c → c ∉ chains i → g.InCluster c s →
    v'.disk.data s = v.disk.data s
  view : ∀ s, g.home s → ¬g.InTable s → s ≠ f.dirSect → ¬g.Owns (chains i) s →
    v'.view s = v.view s
  mirrored : v.disk.Reliable → g.Mirrored v → g.Mirrored v'

theorem Settled.refl (hs : Sound g v chains) (hu : Usable g v f (chains i)) :
    Settled g i v chains f v f :=
  ⟨hs, Drive.After.refl _, rfl, hu, rfl, fun _ _ => rfl, fun _ _ _ _ _ => rfl,
    fun _ _ _ _ _ => rfl, fun _ hm => hm⟩

/-- The bytes of the file on the drive, and its entry as the window shows it. -/
structure Recorded (v : Volume) (f : File) (tm : Nat) (v' : Volume) (f' : File) : Prop where
  unchanged : f'.changed = false
  clean : f'.dirty = false
  entry : v'.view f.dirSect = updateEntry f tm (v.view f.dirSect)

/-- What `f_sync` comes to with a file that was written to.  `FA__WRITTEN` is cleared before
`sync_fs`, so it may be gone with the entry in the window only. -/
inductive Synced (v : Volume) (f : File) (tm : Nat) : FResult × Volume × File → Prop
  | done {v' : Volume} {f' : File} (hrec : Recorded v f tm v' f') (hclean : v'.wflag = false) :
      Synced v f tm (.ok, v', f')
  | before {v' : Volume} {f' : File} (hbad : ¬v.disk.Reliable) (hsame : f'.changed = f.changed) :
      Synced v f tm (.diskErr, v', f')
  | pending {v' : Volume} {f' : File} (hbad : ¬v.disk.Reliable)
      (hrec : Recorded v f tm v' f') : Synced v f tm (.diskErr, v', f')

theorem owns_of_notMem (hs : Sound g v chains) {c s : Nat} (hc : ForData g v chains c)
    (hnot : c ∉ chains i) (hin : g.InCluster c s) : ¬g.Owns (chains i) s := by
  rintro ⟨b, hb, hbin⟩
  exact hnot (hbin.unique (hs.isCluster hb) (hc.isCluster hs.apart) hin ▸ hb)

/-- The write-back, as a part of `f_sync`. -/
theorem settled_back (hs : Sound g v chains) (hu : Usable g v f (chains i))
    (hm : Moved g i v chains v' chains) (hlinks : g.links v' = g.links v)
    (hf' : f' = { f with dirty := f'.dirty }) (hlost : f.dsect = 0 → f'.dirty = false)
    (hclean : f.err = .ok → f'.dirty = false → f.dsect ≠ 0 → v'.disk.data f.dsect = f.buf)
    (hbytes : ∀ k, f'.sector g v' (chains i) k = f.sector g v (chains i) k) :
    Settled g i v chains f v' f' := by
  have hdsect : f'.dsect = f.dsect := by rw [hf']
  have hbuf : f'.buf = f.buf := by rw [hf']
  have hheld : f'.Held g (chains i) := by
    refine ⟨?_, ?_, hdsect ▸ hu.held.placed, fun h => hlost (hdsect ▸ h)⟩
    · rw [hf']; exact hu.held.start
    · rw [hf']; exact hu.held.room
  have hready : f'.err = .ok → f'.Ready g v' (chains i) := by
    intro hok
    have hok' : f.err = .ok := by
      rw [hf'] at hok
      exact hok
    obtain ⟨-, hreach, hcurrent, hhere, -⟩ := hu.ready hok'
    refine ⟨hheld, ?_, ?_, ?_, fun hd hsome => ?_⟩
    · rw [hf']; exact hreach
    · rw [hf']; exact hcurrent
    · rw [hf']; exact hhere
    · rw [hdsect, hbuf]
      exact hclean hok' hd (hdsect ▸ hsome)
  refine ⟨hm.sound, hm.after, hlinks, ⟨hheld, hready, ?_, ?_⟩, ?_, fun p _ => ?_,
    fun c s hc hnot hin => ?_, fun s hhome hst _ hout => hm.frame s hhome hst hout, hm.mirrored⟩
  · rw [hf']; exact hu.inside
  · rw [hf']; exact hu.size
  · rw [hf']
  · unfold File.byte
    rw [hbytes]
  · have hcl := hc.isCluster hs.apart
    obtain ⟨hhome, hoff, -⟩ := hin.offTable hcl
    have hw : s ≠ v.winsect := fun he => hs.off c hc (he ▸ hin)
    have hc' : ForData g v' chains c := by
      unfold ForData
      rw [hlinks]
      exact hc
    have hw' : s ≠ v'.winsect := fun he => hm.sound.off c hc' (he ▸ hin)
    rw [← Window.view_of_ne hw, ← Window.view_of_ne hw']
    exact hm.frame s hhome hoff (owns_of_notMem hs hc hnot hin)

/-- The walk of the window, as a part of `f_sync`. -/
theorem settled_through (hs : Sound g v chains) (hu : Usable g v f (chains i))
    (hl : Listed g v chains f) (h : Through g f.dirSect v v')
    (hf' : f' = { f with changed := f'.changed }) : Settled g i v chains f v' f' := by
  obtain ⟨hs', hlinks, hdata⟩ := hs.through hl.offTable hl.offData h
  have hown : ∀ s, g.Owns (chains i) s → v'.disk.data s = v.disk.data s := by
    rintro s ⟨c, hc, hin⟩
    exact hdata c s (Or.inr ⟨i, hc⟩) hin
  have hheld : f'.Held g (chains i) := by
    rw [hf']
    exact ⟨hu.held.start, hu.held.room, hu.held.placed, hu.held.lost⟩
  refine ⟨hs', h.after, hlinks, ⟨hheld, fun hok => ?_, ?_, ?_⟩, ?_, fun p hp => ?_,
    fun c s hc _ hin => hdata c s hc hin, fun s hhome _ hne _ => h.view s hhome hne, h.mirrored⟩
  · rw [hf'] at hok hheld ⊢
    obtain ⟨-, hreach, hcurrent, hhere, hclean⟩ := hu.ready hok
    refine ⟨hheld, hreach, hcurrent, hhere, fun hd hsome => ?_⟩
    exact (hown _ (hu.held.placed.resolve_left hsome)).trans (hclean hd hsome)
  · rw [hf']; exact hu.inside
  · rw [hf']; exact hu.size
  · rw [hf']
  · have hk : p / 512 < (chains i).length * g.csize := by omega
    rw [hf']
    unfold File.byte File.sector
    rw [hown _ (Geometry.owns_sectorNo hk)]

theorem Settled.trans {f'' : File} (h : Settled g i v chains f v' f')
    (h' : Settled g i v' chains f' v'' f'') : Settled g i v chains f v'' f'' := by
  have hdir : f'.dirSect = f.dirSect := by rw [h.same]
  refine ⟨h'.sound, h.after.trans h'.after, h'.links.trans h.links, h'.usable, ?_,
    fun p hp => (h'.bytes p hp).trans (h.bytes p hp), fun c s hc hnot hin => ?_,
    fun s hs hst hne hout => ?_, fun hr hm => h'.mirrored (hr.after h.after) (h.mirrored hr hm)⟩
  · rw [h'.same, h.same]
  · have hc' : ForData g v' chains c := by
      unfold ForData
      rw [h.links]
      exact hc
    exact (h'.others c s hc' hnot hin).trans (h.others c s hc hnot hin)
  · exact (h'.view s hs hst (hdir ▸ hne) hout).trans (h.view s hs hst hne hout)

theorem Settled.content (hu : Usable g v f (chains i)) (h : Settled g i v chains f v' f') :
    f'.content g v' (chains i) = f.content g v (chains i) := by
  have hsize : f'.fsize = f.fsize := by rw [h.same]
  rw [File.content, File.content, hsize]
  refine List.map_congr_left fun p hp => h.bytes p ?_
  exact Nat.lt_of_lt_of_le (List.mem_range.mp hp) hu.held.room

theorem Listed.of_links (hl : Listed g v chains f) (h : g.links v' = g.links v)
    (hd : f'.dirSect = f.dirSect) (hp : f'.dirPtr = f.dirPtr) : Listed g v' chains f' := by
  refine ⟨hd ▸ hl.home, hd ▸ hl.offTable, fun c hc => ?_, hp ▸ hl.fits⟩
  rw [hd]
  exact hl.offData c (hc.of_links h)

theorem syncEntry_settled (hs : Sound g v chains) (hu : Usable g v f (chains i))
    (hl : Listed g v chains f) (hinfo : g.fsType = .fat32 → g.volbase + 1 < g.fatbase)
    (hclean : f.dirty = false) (tm : Nat) :
    Settled g i v chains f (syncEntry g tm v f).2.1 (syncEntry g tm v f).2.2 ∧
      Synced v f tm (syncEntry g tm v f) := by
  have hmove := through_move hs.coherent hl.home
  unfold syncEntry
  rcases hres : moveWindow g v f.dirSect with ⟨res, v₂⟩
  rw [hres] at hmove
  obtain ⟨ht, hview, ⟨rfl, hwin⟩ | ⟨rfl, hbad⟩⟩ := hmove
  swap
  · exact ⟨settled_through hs hu hl ht rfl, .before hbad rfl⟩
  have hedit := through_change hl.home hwin (updateEntry f tm)
  have hsync := syncFs_cases hedit.coherent hinfo f.dirSect
  simp only
  rcases hres' : syncFs g (v₂.change (updateEntry f tm)) with ⟨res, v₃⟩
  rw [hres'] at hsync
  obtain ⟨ht', hview', hout⟩ := hsync
  have hwin' : v₂.win = v.view f.dirSect := by
    rw [← hview _ hl.home, ← hwin]
    exact (Window.view_self _).symm
  have hrec : Recorded v f tm v₃ { f with changed := false } := by
    refine ⟨rfl, hclean, ?_⟩
    rw [hview' _ hl.home]
    show (v₂.toWindow.edit (updateEntry f tm)).view f.dirSect = _
    rw [Window.edit_view, hwin, Function.update_self, hwin']
  refine ⟨settled_through hs hu hl ((ht.trans hedit).trans ht') rfl, ?_⟩
  obtain ⟨rfl, hflag⟩ | ⟨rfl, hbad⟩ := hout
  · exact .done hrec hflag
  · exact .pending (fun hr => hbad (hr.after (ht.after.trans hedit.after))) hrec

theorem fSync_settled (hs : Sound g v chains) (hu : Usable g v f (chains i))
    (hl : Listed g v chains f) (hinfo : g.fsType = .fat32 → g.volbase + 1 < g.fatbase)
    (hopen : f.attached = true) (tm : Nat) :
    Settled g i v chains f (fSync g tm v f).2.1 (fSync g tm v f).2.2 ∧
      (f.changed = true → Synced v f tm (fSync g tm v f)) ∧
      (f.changed = false → fSync g tm v f = (.ok, v, f)) := by
  unfold fSync
  rw [if_neg (by rw [hopen]; decide)]
  by_cases hchanged : f.changed = true
  swap
  · rw [if_neg hchanged]
    exact ⟨Settled.refl hs hu, fun h => absurd h hchanged, fun _ => rfl⟩
  rw [if_pos hchanged]
  have hnot : f.changed ≠ false := by
    rw [hchanged]
    decide
  obtain ⟨v₁, hm, hlinks, ⟨hwb, hclean, hdata⟩ | ⟨hbad, hwb, hdata⟩⟩ :=
    writeBack_cases hs hu.held.placed hu.held.lost
  swap
  · rw [hwb]
    refine ⟨settled_back hs hu hm hlinks rfl hu.held.lost (fun hok hd hsome => ?_) hdata,
      fun _ => .before hbad rfl, fun h => absurd h hnot⟩
    -- a buffer that was clean was not written
    rw [writeBack, if_neg (by rw [hd]; decide)] at hwb
    cases hwb
  rw [hwb]
  show Settled g i v chains f (syncEntry g tm v₁ _).2.1 (syncEntry g tm v₁ _).2.2 ∧
    (_ → Synced v f tm (syncEntry g tm v₁ _)) ∧ _
  generalize hf₁ : ({ f with dirty := false } : File) = f₁
  have hclean₁ : f₁.dirty = false := by rw [← hf₁]
  have hdir : f₁.dirSect = f.dirSect := by rw [← hf₁]
  have hback : Settled g i v chains f v₁ f₁ := by
    refine settled_back hs hu hm hlinks (by rw [← hf₁]) (fun _ => hclean₁)
      (fun hok _ hsome => hclean (hu.ready hok).clean hsome) fun k => ?_
    unfold File.sector
    rw [if_neg (by rw [hclean₁]; simp), hdata]
    rfl
  have hentry : v₁.view f.dirSect = v.view f.dirSect := by
    refine hm.frame _ hl.home hl.offTable ?_
    rintro ⟨c, hc, hin⟩
    exact hl.offData c (Or.inr ⟨i, hc⟩) hin
  have hl₁ : Listed g v₁ chains f₁ := hl.of_links hlinks hdir (by rw [← hf₁])
  obtain ⟨hset, hout⟩ := syncEntry_settled hm.sound hback.usable hl₁ hinfo hclean₁ tm
  refine ⟨hback.trans hset, fun _ => ?_, fun h => absurd h hnot⟩
  have hrec : ∀ {v' : Volume} {f' : File}, Recorded v₁ f₁ tm v' f' → Recorded v f tm v' f' := by
    intro v' f' h
    refine ⟨h.unchanged, h.clean, ?_⟩
    rw [← hdir, h.entry, hdir, hentry, ← hf₁]
    rfl
  have hafter : ¬v₁.disk.Reliable → ¬v.disk.Reliable := fun hbad hr => hbad (hr.after hm.after)
  generalize syncEntry g tm v₁ f₁ = out at hout
  cases hout with
  | done h hflag => exact .done (hrec h) hflag
  | before hbad hsame => exact .before (hafter hbad) (hsame.trans (by rw [← hf₁]))
  | pending hbad h => exact .pending (hafter hbad) (hrec h)

/-! ## What is on the drive -/

/-- The drive by itself holds a file with these bytes: its entry says how many they are and
where its chain starts, the table links the chain, and they lie in its sectors. -/
structure Stored (g : Geometry) (d : Drive Sector) (dirSect dirPtr : Nat) (chain : List Nat)
    (bytes : List UInt8) : Prop where
  size : ldDword (d.data dirSect) (dirPtr + 28) = bytes.length
  start : ldClust g (d.data dirSect) dirPtr = chain.headD 0
  linked : Linked (g.links (mounted d)) chain
  room : bytes.length ≤ chain.length * g.csize * 512
  data : ∀ p, p < bytes.length →
    some (byteIn (d.data (g.sectorNo chain (p / 512))) p) = bytes[p]?

/-- Mounting a drive that holds what the window shows finds the same table. -/
theorem links_mounted {d : Drive Sector} (hd : ∀ s, g.home s → d.data s = v.view s) :
    g.links (mounted d) = g.links v := by
  refine links_of_table fun b hb => ?_
  have hhome := g.home_of_inTable hb
  have hne : b ≠ noSector := Nat.ne_of_lt hhome.1
  rw [← hd b hhome]
  exact Window.view_of_ne hne

/-- A file that was recorded is stored on any drive that holds what the window shows. -/
theorem Recorded.stored (hs : Settled g i v chains f v' f') (hu : Usable g v f (chains i))
    (hl : Listed g v chains f) (h : Recorded v f tm v' f') {d : Drive Sector}
    (hd : ∀ s, g.home s → d.data s = v'.view s) :
    Stored g d f.dirSect f.dirPtr (chains i) (f.content g v (chains i)) := by
  have hdir : d.data f.dirSect = updateEntry f tm (v.view f.dirSect) :=
    (hd _ hl.home).trans h.entry
  have hfirst : f.sclust < g.fsType.maxEntries := by
    rw [hu.held.start]
    have hle := g.entriesLe
    have hsome := g.someCluster
    cases hc : chains i with
    | nil =>
        show 0 < _
        omega
    | cons a l =>
        have ha := (hs.sound.isCluster (i := i) (hc ▸ List.mem_cons_self)).2
        show a < _
        omega
  have hlen := length_content g v f (chains i)
  refine ⟨?_, ?_, ?_, ?_, fun p hp => ?_⟩
  · rw [hdir, updateEntry_size hl.fits hu.size, hlen]
  · rw [hdir, updateEntry_clust hl.fits hfirst]
    exact hu.held.start
  · rw [links_mounted hd]
    exact hs.sound.apart.linked i
  · rw [hlen]
    exact hu.held.room
  · rw [hlen] at hp
    have hroom := hu.held.room
    have hk : p / 512 < (chains i).length * g.csize := by omega
    obtain ⟨hhome, -, -, -, hoff⟩ := hs.sound.owned (Geometry.owns_sectorNo hk)
    rw [getElem?_content, if_pos hp, ← hs.bytes p (Nat.lt_of_lt_of_le hp hroom),
      byte_clean h.clean, hd _ hhome, Window.view_of_ne hoff]

/-- `f_sync` changes nothing that a reader of any file sees.  If it reports no error on a
file that was written to, the drive alone holds the file: its entry, its chain and its bytes.
If it fails with `FA__WRITTEN` gone, that is so once the window has been written back, which
a second `f_sync` of the file does not do. -/
theorem fSync_stores (hs : Sound g v chains) (hu : Usable g v f (chains i))
    (hl : Listed g v chains f) (hinfo : g.fsType = .fat32 → g.volbase + 1 < g.fatbase)
    (hopen : f.attached = true) (tm : Nat) :
    ∃ res v' f', fSync g tm v f = (res, v', f') ∧ Sound g v' chains ∧ Usable g v' f' (chains i) ∧
      f'.content g v' (chains i) = f.content g v (chains i) ∧
      (∀ c s, ForData g v chains c → c ∉ chains i → g.InCluster c s →
        v'.disk.data s = v.disk.data s) ∧
      (f.changed = true → res = .ok → f'.changed = false ∧
        Stored g v'.disk f.dirSect f.dirPtr (chains i) (f.content g v (chains i))) ∧
      (f.changed = true → f'.changed = false → (syncWindow g v').1 = .ok →
        Stored g (syncWindow g v').2.disk f.dirSect f.dirPtr (chains i)
          (f.content g v (chains i))) ∧
      (f.changed = false → res = .ok ∧ v' = v ∧ f' = f) ∧
      (res ≠ .ok → ¬v.disk.Reliable) := by
  obtain ⟨hset, hchanged, hsame⟩ := fSync_settled hs hu hl hinfo hopen tm
  rcases hrun : fSync g tm v f with ⟨res, v', f'⟩
  rw [hrun] at hset hchanged hsame
  refine ⟨res, v', f', rfl, hset.sound, hset.usable, hset.content hu, hset.others,
    fun hc hok => ?_, fun hc hgone hback => ?_, fun hc => ?_, fun herr => ?_⟩
  · subst hok
    cases hchanged hc with
    | done hrec hclean =>
        exact ⟨hrec.unchanged, hrec.stored hset hu hl fun s hs =>
          Window.data_of_clean g.layout hset.sound.coherent hclean hs⟩
  · obtain ⟨ht, hview, ⟨-, hclean⟩ | ⟨herr, -⟩⟩ := through_sync hset.sound.coherent f.dirSect
    swap
    · cases hback.symm.trans herr
    have hshown : ∀ s, g.home s → (syncWindow g v').2.disk.data s = v'.view s := fun s hs =>
      (Window.data_of_clean g.layout ht.coherent hclean hs).trans (hview s hs)
    cases hchanged hc with
    | done hrec => exact hrec.stored hset hu hl hshown
    | before hbad hkept => cases hgone.symm.trans (hkept.trans hc)
    | pending hbad hrec => exact hrec.stored hset hu hl hshown
  · cases hsame hc
    exact ⟨rfl, rfl, rfl⟩
  · cases hc : f.changed with
    | false =>
        cases hsame hc
        exact absurd rfl herr
    | true =>
        cases hchanged hc with
        | done => exact absurd rfl herr
        | before hbad => exact hbad
        | pending hbad => exact hbad

/-- The note with an "o" written over its "i", which is still in the buffer. -/
def draft : File :=
  { note with dirty := true, fptr := 2, clust := 2, dsect := 4, buf := sectorsOf [72, 111] 0 }

theorem draft_usable : Usable floppy (mounted noteDrive) draft [2] := by
  have hheld : draft.Held floppy [2] :=
    ⟨rfl, by decide, Or.inr ⟨2, List.mem_cons_self, by decide, by decide⟩, fun h => by cases h⟩
  exact ⟨hheld, fun _ => ⟨hheld, by decide, fun _ => rfl, fun _ => by decide, fun h => by cases h⟩,
    fun _ => by decide, by decide⟩

theorem fSync_of_draft :
    ∃ v' f', fSync floppy 0 (mounted noteDrive) draft = (.ok, v', f') ∧
      Stored floppy v'.disk 3 0 [2] [72, 111, 0] := by
  have hlisted : Listed floppy (mounted noteDrive) (fun _ : Unit => [2]) draft :=
    listed_root note_sound.apart (show floppy.home 3 by decide) (show ¬floppy.InTable 3 by decide)
      (show 3 < 4 by decide) (show 0 + 32 ≤ 512 by decide)
  obtain ⟨res, v', f', hrun, -, -, -, -, hok, -, -, herr⟩ :=
    fSync_stores (i := ()) note_sound draft_usable hlisted (fun h => by cases h) rfl 0
  have hfine : res = .ok := by
    by_contra h
    exact herr h fun _ _ => rfl
  subst hfine
  have hbytes : draft.content floppy (mounted noteDrive) [2] = [72, 111, 0] := by decide
  have hstored := (hok rfl rfl).2
  rw [hbytes] at hstored
  exact ⟨v', f', hrun, hstored⟩

/-- The write of the entry fails, and the `f_sync` after that has nothing to do. -/
example :
    let first := fSync floppy 0 (mounted { noteDrive with faults := (faulty 2).faults }) draft
    let second := fSync floppy 0 first.2.1 first.2.2
    first.1 = .diskErr ∧ second.1 = .ok ∧ ldDword (second.2.1.disk.data 3) 28 ≠ 3 := by
  decide +kernel

end Fat
end ImuFirmware
