/-
Reading and seeking between the writes to several files.

A file is a list of bytes with a pointer, computed from the answers to the calls on it.
Whatever is called on the files in whatever order, what an `f_read` returned is what that
list holds at the pointer.
-/
import ImuFirmware.Fat.Files
import ImuFirmware.Fat.Seek

namespace ImuFirmware
namespace Fat

open Storage

variable {ι : Type}

inductive Action (ι : Type) where
  | call (c : Call ι)
  | read (i : ι) (btr : Nat)
  | seek (i : ι) (ofs : Nat)

inductive Response where
  | reply (r : Reply)
  | got (res : FResult) (bs : List UInt8)
  | sought (res : FResult)
  deriving DecidableEq

section actions

variable [DecidableEq ι]

def Action.run (g : Geometry) (s : Disk ι) : Action ι → Response × Disk ι
  | .call c => (.reply (c.run g s).1, (c.run g s).2)
  | .read i btr =>
      match fRead g s.vol (s.files i) btr with
      | (res, bs, v, f) => (.got res bs, s.set i v f)
  | .seek i ofs =>
      match fLseek g s.vol (s.files i) ofs with
      | (res, v, f) => (.sought res, s.set i v f)

def Action.runAll (g : Geometry) :
    Disk ι → List (Action ι) → List (Action ι × Response) × Disk ι
  | s, [] => ([], s)
  | s, r :: rs =>
      ((r, (r.run g s).1) :: (runAll g (r.run g s).2 rs).1, (runAll g (r.run g s).2 rs).2)

/-- What an answer makes of the file `i`.  Nothing is said after a call on it failed, but for
a read that was denied, or after a seek behind its end. -/
def Action.effect (i : ι) (a : Bytes) : Action ι × Response → Option Bytes
  | (.call c, .reply r) => Call.effect i a (c, r)
  | (.read j _, .got res bs) =>
      if j = i then
        if res = .ok then some ⟨a.bytes, a.pos + bs.length⟩
        else if res = .denied then some a else none
      else some a
  | (.seek j ofs, .sought res) =>
      if j = i then if res = .ok ∧ ofs ≤ a.bytes.length then some ⟨a.bytes, ofs⟩ else none
      else some a
  | _ => some a

/-- What a read of the file returned is in it at the pointer: all that was asked for, or a
part of it where the read failed. -/
def Action.Right (i : ι) (a : Bytes) : Action ι × Response → Prop
  | (.read j btr, .got res bs) =>
      j = i → bs <+: a.bytes.drop a.pos ∧ (res = .ok → bs = (a.bytes.drop a.pos).take btr)
  | _ => True

/-- Every read of the file in a log is right, as far as anything is said of the file. -/
def Action.AllRight (i : ι) : Bytes → List (Action ι × Response) → Prop
  | _, [] => True
  | a, r :: log => Action.Right i a r ∧ ∀ a', Action.effect i a r = some a' → AllRight i a' log

end actions

def Action.Proper (g : Geometry) (v : Volume) (chains : ι → List Nat) : Action ι → Prop
  | .call c => c.Proper g v chains
  | .read _ _ => True
  | .seek _ ofs => ofs < 2 ^ 32

variable {g : Geometry} {i j : ι} {v v' : Volume} {chains chains' : ι → List Nat}
  {f f' : File} {s s' : Disk ι} {a a' : Bytes} {btr ofs : Nat}

theorem Action.Proper.fewer {r : Action ι} (hr : r.Proper g v chains)
    (h : ∀ b, ForData g v' chains' b → ForData g v chains b) : r.Proper g v' chains' := by
  cases r with
  | call c => exact Call.Proper.fewer hr h
  | read i btr => trivial
  | seek i ofs => exact hr

theorem fRead_refused (h : f.err ≠ .ok) (hopen : f.attached = true) (btr : Nat) :
    fRead g v f btr = (f.err, [], v, f) := by
  unfold fRead
  rw [if_neg (by rw [hopen]; decide), if_pos h]

theorem fRead_denied (h : f.err = .ok) (hopen : f.attached = true) (hread : f.canRead = false)
    (btr : Nat) : fRead g v f btr = (.denied, [], v, f) := by
  unfold fRead
  rw [if_neg (by rw [hopen]; decide), if_neg (not_not_intro h), if_pos hread]

theorem fLseek_refused (h : f.err ≠ .ok) (hopen : f.attached = true) (ofs : Nat) :
    fLseek g v f ofs = (f.err, v, f) := by
  unfold fLseek
  rw [if_neg (by rw [hopen]; decide), if_pos h]

/-! ## One action -/

variable [DecidableEq ι]

/-- An action that was answered keeps the system, and its answer is right. -/
structure Served (g : Geometry) (s : Disk ι) (chains : ι → List Nat) (r : Action ι × Response)
    (s' : Disk ι) (chains' : ι → List Nat) : Prop where
  system : System g s' chains'
  fewer : ∀ c, ForData g s'.vol chains' c → ForData g s.vol chains c
  right : ∀ i a, Holds g s chains i a → Action.Right i a r
  holds : ∀ i a a', Holds g s chains i a → Action.effect i a r = some a' →
    Holds g s' chains' i a'

/-- An action on the file `i`, with nothing to show for the others. -/
theorem served_tried {r : Action ι × Response} (hsys : System g s chains)
    (h : Tried g i s.vol chains (s.files i) v' chains' f')
    (hother : ∀ j a, j ≠ i → Action.Right j a r ∧ Action.effect j a r = some a)
    (hown : ∀ a, Holds g s chains i a → Action.Right i a r ∧
      ∀ a', Action.effect i a r = some a' → Holds g (s.set i v' f') chains' i a') :
    Served g s chains r (s.set i v' f') chains' := by
  refine ⟨hsys.tried h, h.moved.fewer, fun j a ha => ?_, fun j a a' ha he => ?_⟩
  · by_cases hj : j = i
    · subst hj
      exact (hown a ha).1
    · exact (hother j a hj).1
  · by_cases hj : j = i
    · subst hj
      exact (hown a ha).2 a' he
    · rw [(hother j a hj).2] at he
      cases he
      exact ha.beside hsys (h.beside hsys) hj

theorem read_other (i : ι) (btr : Nat) (res : FResult) (bs : List UInt8) (j : ι) (a : Bytes)
    (hj : j ≠ i) : Action.Right j a (.read i btr, .got res bs) ∧
      Action.effect j a (.read i btr, .got res bs) = some a :=
  ⟨fun h => absurd h.symm hj, if_neg (Ne.symm hj)⟩

theorem served_read (hsys : System g s chains) (i : ι) (btr : Nat) :
    Served g s chains (.read i btr, ((Action.read i btr).run g s).1)
      ((Action.read i btr).run g s).2 chains := by
  have hopen := hsys.attached i
  have hstay := Tried.refl hsys.sound (hsys.usable i)
  simp only [Action.run]
  by_cases hok : (s.files i).err = .ok
  swap
  · rw [fRead_refused hok hopen]
    exact served_tried hsys hstay (read_other i btr _ _) fun a ha => absurd ha.fine hok
  by_cases hread : (s.files i).canRead = true
  swap
  · rw [fRead_denied hok hopen (Bool.eq_false_iff.mpr hread)]
    refine served_tried hsys hstay (read_other i btr _ _) fun a ha => ⟨fun _ => ?_, fun a' he => ?_⟩
    · exact ⟨List.nil_prefix, fun h => by cases h⟩
    · simp only [Action.effect, if_true, reduceCtorEq, if_false, Option.some.injEq] at he
      subst he
      rw [Disk.set_unchanged]
      exact ha
  have hfetch := fRead_fetch hsys.sound (hsys.usable i) ⟨hopen, hok, hread⟩ btr
  rcases hrun : fRead g s.vol (s.files i) btr with ⟨res, bs, v', f'⟩
  rw [hrun] at hfetch
  cases hfetch with
  | read htried hlinks hfine hchanged hcontent hbytes hptr =>
      refine served_tried hsys htried (read_other i btr _ _) fun a ha => ?_
      rw [ha.bytes, ha.pos] at hbytes
      refine ⟨fun _ => ⟨?_, fun _ => hbytes⟩, fun a' he => ?_⟩
      · rw [hbytes]
        exact List.take_prefix ..
      · simp only [Action.effect, if_true, Option.some.injEq] at he
        subst he
        refine ⟨?_, ?_, ?_⟩
        · rw [Disk.set_self]
          exact hfine
        · rw [Disk.set_self, Disk.set_vol, hcontent, ha.bytes]
        · rw [Disk.set_self, hptr, ha.pos]
  | failed htried hlinks herr hcontent hbytes hbad =>
      refine served_tried hsys htried (read_other i btr _ _) fun a ha => ?_
      rw [ha.bytes, ha.pos] at hbytes
      refine ⟨fun _ => ⟨?_, fun h => by cases h⟩, fun a' he => ?_⟩
      · rw [hbytes]
        exact List.take_prefix ..
      · simp only [Action.effect, if_true, reduceCtorEq, if_false] at he

theorem seek_other (i : ι) (ofs : Nat) (res : FResult) (j : ι) (a : Bytes) (hj : j ≠ i) :
    Action.Right j a (.seek i ofs, .sought res) ∧
      Action.effect j a (.seek i ofs, .sought res) = some a :=
  ⟨trivial, if_neg (Ne.symm hj)⟩

theorem served_seek (hsys : System g s chains) (i : ι) (hofs : ofs < 2 ^ 32) :
    ∃ chains', Served g s chains (.seek i ofs, ((Action.seek i ofs).run g s).1)
      ((Action.seek i ofs).run g s).2 chains' := by
  have hopen := hsys.attached i
  simp only [Action.run]
  by_cases hok : (s.files i).err = .ok
  swap
  · rw [fLseek_refused hok hopen]
    exact ⟨chains, served_tried hsys (Tried.refl hsys.sound (hsys.usable i)) (seek_other i ofs _)
      fun a ha => absurd ha.fine hok⟩
  have hland := fLseek_landed hsys.sound (fun _ => hsys.whole) (hsys.usable i) ⟨hopen, hok⟩ hofs
  rcases hrun : fLseek g s.vol (s.files i) ofs with ⟨res, v', f'⟩
  rw [hrun] at hland
  cases hland with
  | @placed v' chains' f' htried hfine hsize hcontent hptr =>
      refine ⟨chains', served_tried hsys htried (seek_other i ofs _) fun a ha =>
        ⟨trivial, fun a' he => ?_⟩⟩
      have hlen : a.bytes.length = (s.files i).fsize := by
        rw [← ha.bytes, length_content]
      simp only [Action.effect, if_true] at he
      split at he
      swap
      · cases he
      next hin =>
      cases he
      -- a place in the file is within its clusters, so the seek was not cut short
      have hroom := (hsys.usable i).held.room
      have hmore := Nat.mul_le_mul_right g.bcs htried.moved.length_le
      rw [mul_bcs] at hroom
      have hclip : (if (s.files i).canWrite then ofs else min ofs (s.files i).fsize) = ofs := by
        split
        · rfl
        · exact Nat.min_eq_left (by omega)
      have hat : f'.fptr = ofs := (hptr.resolve_right fun h => by omega).trans hclip
      have hkept : f'.fsize = (s.files i).fsize := by omega
      refine ⟨?_, ?_, ?_⟩
      · rw [Disk.set_self]
        exact hfine
      · rw [Disk.set_self, Disk.set_vol, ← ha.bytes, ← hcontent, List.take_of_length_le]
        rw [length_content]
        exact Nat.le_of_eq hkept
      · rw [Disk.set_self]
        exact hat
  | @failed res v' chains' f' hres htried herr hcontent hwhy =>
      refine ⟨chains', served_tried hsys htried (seek_other i ofs _) fun a ha =>
        ⟨trivial, fun a' he => ?_⟩⟩
      simp only [Action.effect, if_true, if_neg fun h : _ ∧ _ => hres h.1] at he
      cases he

theorem served_call (hsys : System g s chains)
    (hinfo : g.fsType = .fat32 → g.volbase + 1 < g.fatbase) {c : Call ι}
    (hc : c.Proper g s.vol chains) :
    ∃ chains', Served g s chains (.call c, ((Action.call c).run g s).1)
      ((Action.call c).run g s).2 chains' := by
  obtain ⟨chains', hran⟩ := Call.run_ran hsys hinfo hc
  exact ⟨chains', hran.system, hran.fewer, fun _ _ _ => trivial, hran.holds⟩

/-! ## Whole runs -/

/-- Over any run of actions on any of the files every read returns what the earlier answers
for the same file say. -/
theorem reads_over_run (hinfo : g.fsType = .fat32 → g.volbase + 1 < g.fatbase)
    {rs : List (Action ι)} (hsys : System g s chains)
    (hrs : ∀ r ∈ rs, r.Proper g s.vol chains) :
    (∃ chains', System g (Action.runAll g s rs).2 chains') ∧
      ∀ i a, Holds g s chains i a → Action.AllRight i a (Action.runAll g s rs).1 := by
  induction rs generalizing s chains with
  | nil => exact ⟨⟨chains, hsys⟩, fun _ _ _ => trivial⟩
  | cons r rs ih =>
      have hserved : ∃ chains', Served g s chains (r, (r.run g s).1) (r.run g s).2 chains' := by
        have hr := hrs r List.mem_cons_self
        cases r with
        | call c => exact served_call hsys hinfo hr
        | read i btr => exact ⟨chains, served_read hsys i btr⟩
        | seek i ofs => exact served_seek hsys i hr
      obtain ⟨chains₁, hone⟩ := hserved
      obtain ⟨hsys₂, hall⟩ := ih hone.system fun r' hr' =>
        (hrs r' (List.mem_cons_of_mem r hr')).fewer hone.fewer
      exact ⟨hsys₂, fun i a ha => ⟨hone.right i a ha, fun a' he =>
        hall i a' (hone.holds i a a' ha he)⟩⟩

/-- A volume with one file, open for reading and writing. -/
def noteDisk : Disk Unit := ⟨mounted noteDrive, fun _ => note⟩

theorem noteDisk_system : System floppy noteDisk fun _ => [2] where
  sound := note_sound
  whole := floppy_whole _
  usable _ := note_usable
  listed _ := listed_root note_sound.apart (show floppy.home 3 by decide)
    (show ¬floppy.InTable 3 by decide) (show 3 < 4 by decide) (show 0 + 32 ≤ 512 by decide)
  attached _ := rfl

/-- What was written is read back. -/
theorem noteDisk_reads :
    let run := Action.runAll floppy noteDisk [.call (.write () [65]), .seek () 0, .read () 2]
    Action.AllRight () ⟨[72, 105, 0], 0⟩ run.1 ∧
      run.1.map Prod.snd = [.reply (.wrote .ok 1), .sought .ok, .got .ok [65, 105]] := by
  intro run
  have hproper : ∀ r ∈ [Action.call (.write () [65]), .seek () 0, .read () 2],
      r.Proper floppy noteDisk.vol fun _ => [2] := by
    simp [Action.Proper, Call.Proper]
  have hall := (reads_over_run (by decide) noteDisk_system hproper).2
  exact ⟨hall () ⟨[72, 105, 0], 0⟩ ⟨rfl, note_content, rfl⟩, by decide +kernel⟩

end Fat
end ImuFirmware
