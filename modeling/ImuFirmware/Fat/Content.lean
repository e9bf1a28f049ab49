/-
Open files as sequences of bytes.

`Put` is a write that took place: what the file holds is patched at its pointer, which has
moved behind it.  `Tried` is what is left to say of a write that did not: the file object
can still be synchronised and closed, and the other files are untouched.
-/
import ImuFirmware.Fat.Write
import ImuFirmware.Storage.Patch

namespace ImuFirmware
namespace Fat

open Storage

/-- The bytes of a file. -/
def File.content (g : Geometry) (v : Volume) (f : File) (chain : List Nat) : List UInt8 :=
  (List.range f.fsize).map (f.byte g v chain)

/-- A file object between two calls. -/
structure Usable (g : Geometry) (v : Volume) (f : File) (chain : List Nat) : Prop where
  held : f.Held g chain
  ready : f.err = .ok → f.Ready g v chain
  inside : f.err = .ok → f.fptr ≤ f.fsize
  size : f.fsize < 2 ^ 32

/-- A file that `f_write` does not refuse. -/
structure Writable (f : File) : Prop where
  attached : f.attached = true
  fine : f.err = .ok
  granted : f.canWrite = true

/-- A file that was just created, with its entry at byte `dirPtr` of a sector. -/
def File.fresh (dirSect dirPtr lockid : Nat) : File where
  attached := true
  canRead := false
  canWrite := true
  changed := true
  dirty := false
  err := .ok
  fptr := 0
  fsize := 0
  sclust := 0
  clust := 0
  dsect := 0
  dirSect := dirSect
  dirPtr := dirPtr
  lockid := lockid
  buf := fun _ => 0

variable {ι : Type} {g : Geometry} {i : ι} {v v' v'' : Volume}
  {chains chains' chains'' : ι → List Nat} {f f' f'' : File} {d d' buff : List UInt8} {n : Nat}

theorem fresh_usable (s p l : Nat) : Usable g v (.fresh s p l) [] where
  held := ⟨rfl, Nat.zero_le _, Or.inl rfl, fun _ => rfl⟩
  ready _ := ⟨⟨rfl, Nat.zero_le _, Or.inl rfl, fun _ => rfl⟩, Nat.zero_le _,
    fun h => absurd rfl h, fun h => absurd rfl h, fun _ h => absurd rfl h⟩
  inside _ := Nat.le_refl _
  size := Nat.two_pow_pos 32

theorem fresh_writable (s p l : Nat) : Writable (.fresh s p l) := ⟨rfl, rfl, rfl⟩

/-- Calls that write to the file. -/
structure Tried (g : Geometry) (i : ι) (v : Volume) (chains : ι → List Nat) (f : File)
    (v' : Volume) (chains' : ι → List Nat) (f' : File) : Prop where
  moved : Moved g i v chains v' chains'
  usable : Usable g v' f' (chains' i)
  same : f' = { f with
    changed := f'.changed
    dirty := f'.dirty
    err := f'.err
    fptr := f'.fptr
    fsize := f'.fsize
    sclust := f'.sclust
    clust := f'.clust
    dsect := f'.dsect
    buf := f'.buf }

/-- Calls that wrote `d` at the pointer. -/
structure Put (g : Geometry) (i : ι) (v : Volume) (chains : ι → List Nat) (f : File)
    (d : List UInt8) (v' : Volume) (chains' : ι → List Nat) (f' : File) : Prop
    extends Tried g i v chains f v' chains' f' where
  fine : f'.err = .ok
  pointer : f'.fptr = f.fptr + d.length
  content : f'.content g v' (chains' i) = patched (f.content g v (chains i)) f.fptr d

theorem length_content (g : Geometry) (v : Volume) (f : File) (chain : List Nat) :
    (f.content g v chain).length = f.fsize := by
  rw [File.content, List.length_map, List.length_range]

theorem getElem?_content (chain : List Nat) (p : Nat) :
    (f.content g v chain)[p]? = if p < f.fsize then some (f.byte g v chain p) else none := by
  rw [File.content, List.getElem?_map]
  split
  · next h => rw [List.getElem?_range h]; rfl
  · next h => rw [List.getElem?_eq_none (by rw [List.length_range]; omega)]; rfl

theorem Tried.refl (hs : Sound g v chains) (hu : Usable g v f (chains i)) :
    Tried g i v chains f v chains f := ⟨Moved.refl hs, hu, rfl⟩

theorem Tried.trans (h : Tried g i v chains f v' chains' f')
    (h' : Tried g i v' chains' f' v'' chains'' f'') : Tried g i v chains f v'' chains'' f'' := by
  refine ⟨h.moved.trans h'.moved, h'.usable, ?_⟩
  rw [h'.same, h.same]

theorem Put.refl (hs : Sound g v chains) (hu : Usable g v f (chains i)) (hok : f.err = .ok) :
    Put g i v chains f [] v chains f :=
  ⟨Tried.refl hs hu, hok, rfl, (patched_nil _ _).symm⟩

/-- Writes one behind the other. -/
theorem Put.trans (hu : Usable g v f (chains i)) (hok : f.err = .ok)
    (h : Put g i v chains f d v' chains' f') (h' : Put g i v' chains' f' d' v'' chains'' f'') :
    Put g i v chains f (d ++ d') v'' chains'' f'' := by
  refine ⟨h.toTried.trans h'.toTried, h'.fine, ?_, ?_⟩
  · rw [h'.pointer, h.pointer, List.length_append, Nat.add_assoc]
  · have hin : f.fptr ≤ (f.content g v (chains i)).length := by
      rw [length_content]
      exact hu.inside hok
    rw [h'.content, h.content, h.pointer, patched_patched hin]

theorem Writable.of_same (h : Tried g i v chains f v' chains' f') (hw : Writable f)
    (hok : f'.err = .ok) : Writable f' := by
  refine ⟨?_, hok, ?_⟩
  · rw [h.same]; exact hw.attached
  · rw [h.same]; exact hw.granted

theorem Usable.of_data (hu : Usable g v f chain)
    (h : ∀ s, g.Owns chain s → v'.disk.data s = v.disk.data s) : Usable g v' f chain := by
  refine ⟨hu.held, fun hok => ?_, hu.inside, hu.size⟩
  obtain ⟨hheld, hreach, hcurrent, hhere, hclean⟩ := hu.ready hok
  refine ⟨hheld, hreach, hcurrent, hhere, fun hd hsome => ?_⟩
  rw [h _ (hheld.placed.resolve_left hsome)]
  exact hclean hd hsome

theorem content_of_data (hroom : f.fsize ≤ chain.length * g.csize * 512)
    (h : ∀ s, g.Owns chain s → v'.disk.data s = v.disk.data s) :
    f.content g v' chain = f.content g v chain := by
  refine List.map_congr_left fun p hp => ?_
  have hk : p / 512 < chain.length * g.csize := by
    have := List.mem_range.mp hp
    omega
  unfold File.byte File.sector
  rw [h _ (Geometry.owns_sectorNo hk)]

/-! ## `f_write` on the bytes -/

/-- The bytes of the file after a part of a transfer that met no error. -/
theorem Wrote.content (hin : f.fptr ≤ f.fsize) (hn : n ≤ buff.length)
    (h : Wrote g i v chains f buff n n v' chains' f') (hsize : f''.fsize = max f'.fsize f'.fptr)
    (hbyte : ∀ p, f''.byte g v' (chains' i) p = f'.byte g v' (chains' i) p) :
    f''.content g v' (chains' i) = patched (f.content g v (chains i)) f.fptr (buff.take n) := by
  obtain ⟨hptr, hold⟩ := h.fptr
  have hlen : (buff.take n).length = n := by
    rw [List.length_take]
    omega
  have hroom : f.fptr ≤ (f.content g v (chains i)).length := by
    rw [length_content]
    exact hin
  refine List.ext_getElem? fun p => ?_
  rw [getElem?_content, hsize, hptr, hold, hbyte]
  by_cases hlow : p < f.fptr
  · rw [getElem?_patched_of_lt hroom hlow, getElem?_content, if_pos (by omega),
      if_pos (by omega), h.kept p (by omega) (Or.inl hlow)]
  by_cases hhigh : p < f.fptr + n
  · rw [getElem?_patched_within hroom (by omega) (by omega), if_pos (by omega),
      h.got p (by omega) hhigh, List.getElem?_take_of_lt (by omega),
      List.getElem?_eq_getElem (by omega), List.getD_eq_getElem _ _ (by omega)]
  · rw [getElem?_patched_of_ge hroom (by omega), getElem?_content]
    by_cases hend : p < f.fsize
    · rw [if_pos (by omega), if_pos hend, h.kept p (by omega) (Or.inr (by omega))]
    · rw [if_neg (by omega), if_neg hend]

/-- What `f_write` comes to, in bytes. -/
inductive Answered (g : Geometry) (i : ι) (v : Volume) (chains : ι → List Nat) (f : File)
    (buff : List UInt8) : FResult × Nat × Volume × File → Prop
  | put {n : Nat} {v' : Volume} {chains' : ι → List Nat} {f' : File} (hn : n ≤ buff.length)
      (hput : Put g i v chains f (buff.take n) v' chains' f') (hchanged : f'.changed = true)
      (hwhy : n = buff.length ∨ 2 ^ 32 ≤ f.fptr + buff.length ∨ ∀ c, g.links v' c ≠ .free) :
      Answered g i v chains f buff (.ok, n, v', f')
  | failed {res : FResult} {n : Nat} {v' : Volume} {chains' : ι → List Nat} {f' : File}
      (hres : res ≠ .ok) (hn : n < buff.length) (htried : Tried g i v chains f v' chains' f')
      (herr : f'.err = res) (hwhy : v.disk.Reliable → Damaged g v) :
      Answered g i v chains f buff (res, n, v', f')

theorem fWrite_answered [DecidableEq ι] (hs : Sound g v chains) (hw : Whole g v)
    (hu : Usable g v f (chains i)) (hopen : Writable f) (hlen : buff.length < 2 ^ 32) :
    Answered g i v chains f buff (fWrite g v f buff) := by
  have hin := hu.inside hopen.fine
  have hsize := hu.size
  have h := fWrite_written hs hw (hu.ready hopen.fine) ⟨hopen.attached, hopen.fine, hopen.granted⟩
    (by omega) hlen
  generalize fWrite g v f buff = out at h
  cases h with
  | @wrote n v' chains' f' hn hwrote hready hwhy hbound =>
      obtain ⟨hptr, hold⟩ := hwrote.fptr
      have hfine : f'.err = .ok := by
        rw [hwrote.same]
        exact hopen.fine
      have hfit : (buff.take n).length = n := by
        rw [List.length_take]
        omega
      generalize hf'' : ({ f' with fsize := max f'.fsize f'.fptr, changed := true } : File) = f''
      have hsize'' : f''.fsize = max f'.fsize f'.fptr := by rw [← hf'']
      have hptr'' : f''.fptr = f'.fptr := by rw [← hf'']
      have hready'' : f''.Ready g v' (chains' i) := by
        rw [← hf'']
        exact ⟨⟨hready.start, Nat.max_le.mpr ⟨hready.room, hready.reach⟩, hready.placed,
          hready.lost⟩, hready.reach, hready.current, hready.here, hready.clean⟩
      refine .put hn ⟨⟨hwrote.moved, ⟨hready''.toHeld, fun _ => hready'', fun _ => ?_, ?_⟩, ?_⟩,
        ?_, ?_, ?_⟩ (by rw [← hf'']) hwhy
      · omega
      · omega
      · rw [← hf'', hwrote.same]
      · rw [← hf'']
        exact hfine
      · omega
      · exact hwrote.content hin hn hsize'' fun p => by rw [← hf'']; rfl
  | @aborted res n v' chains' f' hres hn hwrote hwhy =>
      obtain ⟨hptr, hold⟩ := hwrote.fptr
      refine .failed hres hn ⟨hwrote.moved, ⟨⟨hwrote.held.start, hwrote.held.room,
        hwrote.held.placed, hwrote.held.lost⟩, fun hok => absurd hok hres, fun hok =>
        absurd hok hres, ?_⟩, ?_⟩ rfl hwhy
      · show f'.fsize < _
        omega
      · rw [hwrote.same]

/-- `f_write` patches what it reports into the file at the pointer, all of it unless the
file reaches 4 GiB or the volume is full; the other files keep their sectors, and with no
transfer failing there is no error but on a damaged table. -/
theorem fWrite_patches [DecidableEq ι] (hs : Sound g v chains) (hw : Whole g v)
    (hu : Usable g v f (chains i)) (hopen : Writable f) (hlen : buff.length < 2 ^ 32) :
    ∃ res n v' chains' f', fWrite g v f buff = (res, n, v', f') ∧ n ≤ buff.length ∧
      Sound g v' chains' ∧ Usable g v' f' (chains' i) ∧
      (∀ j, j ≠ i → chains' j = chains j ∧
        ∀ s, g.Owns (chains j) s → v'.disk.data s = v.disk.data s) ∧
      (res = .ok → f'.fptr = f.fptr + n ∧
        f'.content g v' (chains' i) =
          patched (f.content g v (chains i)) f.fptr (buff.take n) ∧
        (n = buff.length ∨ 2 ^ 32 ≤ f.fptr + buff.length ∨ ∀ c, g.links v' c ≠ .free)) ∧
      (res ≠ .ok → f'.err = res ∧ (v.disk.Reliable → Damaged g v)) := by
  have h := fWrite_answered hs hw hu hopen hlen
  rcases hrun : fWrite g v f buff with ⟨res, n, v', f'⟩
  rw [hrun] at h
  cases h with
  | @put _ _ chains' _ hn hput hchanged hwhy =>
      have hm := hput.moved
      have hfit : (buff.take n).length = n := by
        rw [List.length_take]
        omega
      refine ⟨_, _, _, chains', _, rfl, hn, hm.sound, hput.usable, hm.rest hs,
        fun _ => ⟨?_, hput.content, hwhy⟩, fun hres => absurd rfl hres⟩
      rw [hput.pointer, hfit]
  | @failed _ _ _ chains' _ hres hn htried herr hwhy =>
      have hm := htried.moved
      exact ⟨_, _, _, chains', _, rfl, Nat.le_of_lt hn, hm.sound, htried.usable, hm.rest hs,
        fun hok => absurd hok hres, fun _ => ⟨herr, hwhy⟩⟩

/-- A write to a new file, and one in which a transfer fails. -/
theorem fWrite_on_blank :
    (∃ v' f', ∃ chains' : Unit → List Nat,
      fWrite card (mounted blank) (.fresh 3 0 1) [1, 2, 3] = (.ok, 3, v', f') ∧
        f'.content card v' (chains' ()) = [1, 2, 3]) ∧
      ∃ n v' f', fWrite floppy (mounted (faulty 0)) (.fresh 3 0 1) [1, 2, 3] =
        (.diskErr, n, v', f') ∧ f'.err = .diskErr := by
  have hlen : ([1, 2, 3] : List UInt8).length < 2 ^ 32 := by decide
  constructor
  · have hres : (fWrite card (mounted blank) (.fresh 3 0 1) [1, 2, 3]).1 = .ok ∧
        (fWrite card (mounted blank) (.fresh 3 0 1) [1, 2, 3]).2.1 = 3 := by decide +kernel
    obtain ⟨res, n, v', chains', f', hrun, -, -, -, -, hok, -⟩ :=
      fWrite_patches (g := card) (i := ()) (mounted_sound (.empty _))
        (whole_of_small fun h => by cases h) (fresh_usable 3 0 1) (fresh_writable 3 0 1) hlen
    rw [hrun] at hres
    obtain ⟨rfl, rfl⟩ := hres
    exact ⟨v', f', chains', hrun, (hok rfl).2.1.trans (by decide)⟩
  · have hres : (fWrite floppy (mounted (faulty 0)) (.fresh 3 0 1) [1, 2, 3]).1 = .diskErr := by
      decide +kernel
    obtain ⟨res, n, v', chains', f', hrun, -, -, -, -, -, herr⟩ :=
      fWrite_patches (i := ()) (mounted_sound (.empty _)) (floppy_whole (mounted (faulty 0)))
        (fresh_usable 3 0 1) (fresh_writable 3 0 1) hlen
    rw [hrun] at hres
    cases hres
    exact ⟨n, v', f', hrun, (herr (by decide)).1⟩

/-! ## A file to try -/

/-- A drive with a file of three bytes in cluster 2. -/
def noteDrive : Drive Sector where
  data s := sectorsOf (if s = 1 then [0, 0, 0, 0xFF, 0x0F] else if s = 4 then [72, 105] else []) 0
  faults _ := none
  transfers := 0

def note : File := { File.fresh 3 0 1 with canRead := true, fsize := 3, sclust := 2 }

theorem note_sound : Sound floppy (mounted noteDrive) fun _ : Unit => [2] := by
  refine mounted_sound ⟨fun _ => ?_, fun i j hij => absurd rfl hij⟩
  show floppy.links (mounted noteDrive) 2 = .last
  refine Geometry.links_eq_last_iff.mpr ⟨by decide, ?_⟩
  decide

theorem note_usable : Usable floppy (mounted noteDrive) note [2] where
  held := ⟨rfl, by decide, Or.inl rfl, fun _ => rfl⟩
  ready _ := ⟨⟨rfl, by decide, Or.inl rfl, fun _ => rfl⟩, by decide, fun h => absurd rfl h,
    fun h => absurd rfl h, fun _ h => absurd rfl h⟩
  inside _ := by decide
  size := by decide

theorem note_content : note.content floppy (mounted noteDrive) [2] = [72, 105, 0] := by
  decide

end Fat
end ImuFirmware
