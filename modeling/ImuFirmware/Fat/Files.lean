/-
Several open files on one volume.

Calls on different files come in any order, directories are read in between, and any
transfer may fail.  Each file holds what its own calls wrote, patched in one after the
other, as long as none of them failed: the bytes and the pointer of the abstract file are
computed from the answers alone.
-/
import ImuFirmware.Fat.Puts
import ImuFirmware.Fat.Sync

namespace ImuFirmware
namespace Fat

open Storage

variable {ι : Type}

/-- A call on one of the files, or a look at a sector of a directory. -/
inductive Call (ι : Type) where
  | write (i : ι) (buff : List UInt8)
  | puts (i : ι) (str : List UInt8)
  | sync (i : ι) (tm : Nat)
  | visit (s : Nat)

inductive Reply where
  | wrote (res : FResult) (n : Nat)
  | put (nchr : Option Nat)
  | done (res : FResult)
  deriving DecidableEq

/-- The volume and its open files. -/
structure Disk (ι : Type) where
  vol : Volume
  files : ι → File

/-- A file of bytes, with a pointer into them. -/
structure Bytes where
  bytes : List UInt8
  pos : Nat
  deriving DecidableEq

def Bytes.write (a : Bytes) (d : List UInt8) : Bytes :=
  ⟨patched a.bytes a.pos d, a.pos + d.length⟩

section calls

variable [DecidableEq ι]

/-- The volume and the file `i` after a call on it. -/
def Disk.set (s : Disk ι) (i : ι) (v : Volume) (f : File) : Disk ι :=
  ⟨v, Function.update s.files i f⟩

def Call.run (g : Geometry) (s : Disk ι) : Call ι → Reply × Disk ι
  | .write i buff =>
      match fWrite g s.vol (s.files i) buff with
      | (res, n, v, f) => (.wrote res n, s.set i v f)
  | .puts i str =>
      match fPuts g s.vol (s.files i) str with
      | (nchr, v, f) => (.put nchr, s.set i v f)
  | .sync i tm =>
      match fSync g tm s.vol (s.files i) with
      | (res, v, f) => (.done res, s.set i v f)
  | .visit sect => (.done (moveWindow g s.vol sect).1, ⟨(moveWindow g s.vol sect).2, s.files⟩)

def Call.runAll (g : Geometry) : Disk ι → List (Call ι) → List (Call ι × Reply) × Disk ι
  | s, [] => ([], s)
  | s, c :: cs =>
      ((c, (c.run g s).1) :: (runAll g (c.run g s).2 cs).1, (runAll g (c.run g s).2 cs).2)

/-- What an answered call makes of the file `i`; nothing is said of a file after a call on
it failed. -/
def Call.effect (i : ι) (a : Bytes) : Call ι × Reply → Option Bytes
  | (.write j buff, .wrote res n) =>
      if j = i then if res = .ok then some (a.write (buff.take n)) else none else some a
  | (.puts j str, .put nchr) =>
      if j = i then if nchr = none then none else some (a.write (str.flatMap crlf)) else some a
  | _ => some a

def Call.effects (i : ι) : Bytes → List (Call ι × Reply) → Option Bytes
  | a, [] => some a
  | a, r :: log => (Call.effect i a r).bind fun a => effects i a log

end calls

/-- No buffer is longer than a `UINT` says, and directories are not file data. -/
def Call.Proper (g : Geometry) (v : Volume) (chains : ι → List Nat) : Call ι → Prop
  | .write _ buff => buff.length < 2 ^ 32
  | .visit s => g.home s ∧ ¬g.InTable s ∧ ∀ c, ForData g v chains c → ¬g.InCluster c s
  | _ => True

/-- What is true of the volume and its open files between two calls. -/
structure System (g : Geometry) (s : Disk ι) (chains : ι → List Nat) : Prop where
  sound : Sound g s.vol chains
  whole : Whole g s.vol
  usable : ∀ i, Usable g s.vol (s.files i) (chains i)
  listed : ∀ i, Listed g s.vol chains (s.files i)
  attached : ∀ i, (s.files i).attached = true

variable {g : Geometry} {i j : ι} {v v' : Volume} {chains chains' : ι → List Nat}
  {f f' : File} {chain : List Nat}

/-! ## The other files -/

theorem Settled.other (hs : Sound g v chains) (h : Settled g i v chains f v' f') (hj : j ≠ i)
    {s : Nat} (hown : g.Owns (chains j) s) : v'.disk.data s = v.disk.data s := by
  obtain ⟨c, hc, hin⟩ := hown
  exact h.others c s (Or.inr ⟨j, hc⟩) (hs.apart.disjoint j i hj c hc) hin

theorem Listed.moved (hl : Listed g v chains f)
    (h : ∀ c, ForData g v' chains' c → ForData g v chains c) (hd : f'.dirSect = f.dirSect)
    (hp : f'.dirPtr = f.dirPtr) : Listed g v' chains' f' :=
  ⟨hd ▸ hl.home, hd ▸ hl.offTable, fun c hc => hd ▸ hl.offData c (h c hc), hp ▸ hl.fits⟩

theorem Call.Proper.fewer {c : Call ι} (hc : c.Proper g v chains)
    (h : ∀ b, ForData g v' chains' b → ForData g v chains b) : c.Proper g v' chains' := by
  cases c with
  | visit b => exact ⟨hc.1, hc.2.1, fun c hd => hc.2.2 c (h c hd)⟩
  | write i buff => exact hc
  | puts i str => trivial
  | sync i tm => trivial

/-! ## One call -/

/-- The file `i` is the file `a` of bytes, and no call on it failed. -/
structure Holds (g : Geometry) (s : Disk ι) (chains : ι → List Nat) (i : ι) (a : Bytes) :
    Prop where
  fine : (s.files i).err = .ok
  bytes : (s.files i).content g s.vol (chains i) = a.bytes
  pos : (s.files i).fptr = a.pos

variable {s s' : Disk ι} {a a' : Bytes}

/-- What a call on the file `i` owes the others. -/
structure Beside (g : Geometry) (i : ι) (s : Disk ι) (chains : ι → List Nat) (v' : Volume)
    (chains' : ι → List Nat) : Prop where
  sound : Sound g v' chains'
  after : s.vol.disk.After v'.disk
  others : ∀ j, j ≠ i → chains' j = chains j
  fewer : ∀ c, ForData g v' chains' c → ForData g s.vol chains c
  data : ∀ j, j ≠ i → ∀ b, g.Owns (chains j) b → v'.disk.data b = s.vol.disk.data b

theorem Tried.beside (hsys : System g s chains)
    (h : Tried g i s.vol chains (s.files i) v' chains' f') : Beside g i s chains v' chains' :=
  ⟨h.moved.sound, h.moved.after, h.moved.others, h.moved.fewer,
    fun _ hj _ hown => h.moved.other hsys.sound hj hown⟩

theorem Settled.beside (hsys : System g s chains)
    (h : Settled g i s.vol chains (s.files i) v' f') : Beside g i s chains v' chains :=
  ⟨h.sound, h.after, fun _ _ => rfl, fun _ hc => hc.of_links h.links,
    fun _ hj _ hown => h.other hsys.sound hj hown⟩

variable [DecidableEq ι]

@[simp] theorem Disk.set_vol : (s.set i v' f').vol = v' := rfl

theorem Disk.set_self : (s.set i v' f').files i = f' := Function.update_self ..

theorem Disk.set_of_ne (h : j ≠ i) : (s.set i v' f').files j = s.files j :=
  Function.update_of_ne h ..

theorem System.set (hsys : System g s chains) (h : Beside g i s chains v' chains')
    (hu : Usable g v' f' (chains' i)) (hdir : f'.dirSect = (s.files i).dirSect)
    (hptr : f'.dirPtr = (s.files i).dirPtr)
    (hopen : f'.attached = true) : System g (s.set i v' f') chains' := by
  refine ⟨h.sound, hsys.whole.after h.after, fun j => ?_, fun j => ?_, fun j => ?_⟩
  · by_cases hj : j = i
    · subst hj
      rw [Disk.set_self]
      exact hu
    · rw [Disk.set_of_ne hj, h.others j hj]
      exact (hsys.usable j).of_data (h.data j hj)
  · by_cases hj : j = i
    · subst hj
      rw [Disk.set_self]
      exact (hsys.listed j).moved h.fewer hdir hptr
    · rw [Disk.set_of_ne hj]
      exact (hsys.listed j).moved h.fewer rfl rfl
  · by_cases hj : j = i
    · subst hj
      rw [Disk.set_self]
      exact hopen
    · rw [Disk.set_of_ne hj]
      exact hsys.attached j

theorem Holds.beside (hsys : System g s chains) (h : Beside g i s chains v' chains')
    (hj : j ≠ i) (ha : Holds g s chains j a) : Holds g (s.set i v' f') chains' j a := by
  refine ⟨?_, ?_, ?_⟩
  · rw [Disk.set_of_ne hj]
    exact ha.fine
  · rw [Disk.set_of_ne hj, h.others j hj, ← ha.bytes]
    exact content_of_data (hsys.usable j).held.room (h.data j hj)
  · rw [Disk.set_of_ne hj]
    exact ha.pos

theorem System.tried (hsys : System g s chains)
    (h : Tried g i s.vol chains (s.files i) v' chains' f') : System g (s.set i v' f') chains' :=
  hsys.set (h.beside hsys) h.usable (by rw [h.same]) (by rw [h.same])
    (by rw [h.same]; exact hsys.attached i)

theorem System.settled (hsys : System g s chains)
    (h : Settled g i s.vol chains (s.files i) v' f') : System g (s.set i v' f') chains :=
  hsys.set (h.beside hsys) h.usable (by rw [h.same]) (by rw [h.same])
    (by rw [h.same]; exact hsys.attached i)

theorem Holds.put {d : List UInt8} (h : Put g i s.vol chains (s.files i) d v' chains' f')
    (ha : Holds g s chains i a) : Holds g (s.set i v' f') chains' i (a.write d) := by
  refine ⟨?_, ?_, ?_⟩
  · rw [Disk.set_self]
    exact h.fine
  · rw [Disk.set_self, Disk.set_vol, h.content, ha.bytes, ha.pos]
    rfl
  · rw [Disk.set_self, h.pointer, ha.pos]
    rfl

theorem Holds.settled (hsys : System g s chains)
    (h : Settled g i s.vol chains (s.files i) v' f') (ha : Holds g s chains j a) :
    Holds g (s.set i v' f') chains j a := by
  by_cases hj : j = i
  · subst hj
    refine ⟨?_, ?_, ?_⟩
    · rw [Disk.set_self, h.same]
      exact ha.fine
    · rw [Disk.set_self, Disk.set_vol, ← ha.bytes, h.content (hsys.usable j)]
    · rw [Disk.set_self, h.same]
      exact ha.pos
  · exact ha.beside hsys (h.beside hsys) hj

/-- A file with an error, or one that is open for reading only, is refused and left as it
is. -/
theorem fWrite_refused (h : ¬(f.err = .ok ∧ f.canWrite = true)) (hopen : f.attached = true) :
    ∃ res, res ≠ .ok ∧ ∀ buff, fWrite g v f buff = (res, 0, v, f) := by
  by_cases hok : f.err = .ok
  · have hcan : f.canWrite = false := Bool.eq_false_iff.mpr fun hcan => h ⟨hok, hcan⟩
    refine ⟨.denied, by decide, fun buff => ?_⟩
    unfold fWrite
    rw [if_neg (by rw [hopen]; decide), if_neg (not_not_intro hok), if_pos hcan]
  · refine ⟨f.err, hok, fun buff => ?_⟩
    unfold fWrite
    rw [if_neg (by rw [hopen]; decide), if_pos hok]

theorem putsLoop_refused {res : FResult} (h : ∀ buff, fWrite g v f buff = (res, 0, v, f))
    (str : List UInt8) (pb : PutBuff) : ∃ pb', putsLoop g v f pb str = (v, f, pb') := by
  have hbyte : ∀ pb c, ∃ pb', putByte g v f pb c = (v, f, pb') := by
    intro pb c
    unfold putByte
    cases pb.buf with
    | none => exact ⟨pb, rfl⟩
    | some b =>
        simp only [h]
        split
        · exact ⟨_, rfl⟩
        · exact ⟨_, rfl⟩
  induction str generalizing pb with
  | nil => exact ⟨pb, rfl⟩
  | cons c str ih =>
      rw [putsLoop]
      have hchar : ∃ pb', putcBfd g v f pb c = (v, f, pb') := by
        unfold putcBfd
        split
        · obtain ⟨pb₁, h₁⟩ := hbyte pb 13
          rw [h₁]
          exact hbyte pb₁ c
        · exact hbyte pb c
      obtain ⟨pb₁, h₁⟩ := hchar
      rw [h₁]
      exact ih pb₁

theorem fPuts_refused {res : FResult} (hres : res ≠ .ok)
    (h : ∀ buff, fWrite g v f buff = (res, 0, v, f)) (str : List UInt8) :
    fPuts g v f str = (none, v, f) := by
  unfold fPuts
  obtain ⟨pb, hloop⟩ := putsLoop_refused h str ⟨some [], 0⟩
  rw [hloop]
  show flushPuts g v f pb = _
  unfold flushPuts
  cases pb.buf with
  | none => rfl
  | some b =>
      simp only [h]
      rw [if_neg fun hok => hres hok.1]

theorem Disk.set_unchanged (s : Disk ι) (i : ι) : s.set i s.vol (s.files i) = s := by
  unfold Disk.set
  rw [Function.update_eq_self]

/-- A call that was answered keeps the system, and makes of a file what its answer says. -/
structure Ran (g : Geometry) (s : Disk ι) (chains : ι → List Nat) (r : Call ι × Reply)
    (s' : Disk ι) (chains' : ι → List Nat) : Prop where
  system : System g s' chains'
  fewer : ∀ c, ForData g s'.vol chains' c → ForData g s.vol chains c
  holds : ∀ i a a', Holds g s chains i a → Call.effect i a r = some a' →
    Holds g s' chains' i a'

theorem effect_other {c : Call ι} {r : Reply} (hj : j ≠ i)
    (hc : (∃ buff, c = .write i buff) ∨ (∃ str, c = .puts i str) ∨ ∃ tm, c = .sync i tm) :
    Call.effect j a (c, r) = some a := by
  obtain ⟨buff, rfl⟩ | ⟨str, rfl⟩ | ⟨tm, rfl⟩ := hc
  · cases r with
    | wrote res n => exact if_neg (Ne.symm hj)
    | put nchr => rfl
    | done res => rfl
  · cases r with
    | wrote res n => rfl
    | put nchr => exact if_neg (Ne.symm hj)
    | done res => rfl
  · rfl

/-- A call that writes, and what its answer says of the file. -/
theorem ran_tried {c : Call ι} {r : Reply} (hsys : System g s chains)
    (h : Tried g i s.vol chains (s.files i) v' chains' f')
    (hc : (∃ buff, c = .write i buff) ∨ (∃ str, c = .puts i str) ∨ ∃ tm, c = .sync i tm)
    (hown : ∀ a a', Holds g s chains i a → Call.effect i a (c, r) = some a' →
      Holds g (s.set i v' f') chains' i a') :
    Ran g s chains (c, r) (s.set i v' f') chains' := by
  refine ⟨hsys.tried h, h.moved.fewer, fun j a a' ha he => ?_⟩
  by_cases hj : j = i
  · subst hj
    exact hown a a' ha he
  · rw [effect_other hj hc] at he
    cases he
    exact ha.beside hsys (h.beside hsys) hj

theorem ran_write (hsys : System g s chains) {buff : List UInt8} (hlen : buff.length < 2 ^ 32) :
    ∃ chains', Ran g s chains (.write i buff, ((Call.write i buff).run g s).1)
      ((Call.write i buff).run g s).2 chains' := by
  have hopen := hsys.attached i
  simp only [Call.run]
  by_cases hcan : (s.files i).err = .ok ∧ (s.files i).canWrite = true
  · have hans := fWrite_answered hsys.sound hsys.whole (hsys.usable i) ⟨hopen, hcan.1, hcan.2⟩ hlen
    rcases hrun : fWrite g s.vol (s.files i) buff with ⟨res, n, v', f'⟩
    rw [hrun] at hans
    cases hans with
    | put hn hput hchanged hwhy =>
        refine ⟨_, ran_tried hsys hput.toTried (Or.inl ⟨buff, rfl⟩) fun a a' ha he => ?_⟩
        simp only [Call.effect, if_true] at he
        cases he
        exact ha.put hput
    | failed hres hlt htried herr hwhy =>
        refine ⟨_, ran_tried hsys htried (Or.inl ⟨buff, rfl⟩) fun a a' ha he => ?_⟩
        simp only [Call.effect, if_true, if_neg hres] at he
        cases he
  · obtain ⟨res, hres, hrefused⟩ := fWrite_refused (g := g) (v := s.vol) hcan hopen
    rw [hrefused]
    refine ⟨chains, ran_tried hsys (Tried.refl hsys.sound (hsys.usable i)) (Or.inl ⟨buff, rfl⟩)
      fun a a' ha he => ?_⟩
    simp only [Call.effect, if_true, if_neg hres] at he
    cases he

theorem ran_puts (hsys : System g s chains) (str : List UInt8) :
    ∃ chains', Ran g s chains (.puts i str, ((Call.puts i str).run g s).1)
      ((Call.puts i str).run g s).2 chains' := by
  have hopen := hsys.attached i
  simp only [Call.run]
  by_cases hcan : (s.files i).err = .ok ∧ (s.files i).canWrite = true
  · have hputs := fPuts_puts hsys.sound hsys.whole (hsys.usable i) ⟨hopen, hcan.1, hcan.2⟩ str
    rcases hrun : fPuts g s.vol (s.files i) str with ⟨nchr, v', f'⟩
    rw [hrun] at hputs
    cases hputs with
    | wrote hput hchanged =>
        refine ⟨_, ran_tried hsys hput.toTried (Or.inr (Or.inl ⟨str, rfl⟩)) fun a a' ha he => ?_⟩
        simp only [Call.effect, if_true, reduceCtorEq, if_false] at he
        cases he
        exact ha.put hput
    | eof htried hwhy =>
        refine ⟨_, ran_tried hsys htried (Or.inr (Or.inl ⟨str, rfl⟩)) fun a a' ha he => ?_⟩
        simp only [Call.effect, if_true] at he
        cases he
  · obtain ⟨res, hres, hrefused⟩ := fWrite_refused (g := g) (v := s.vol) hcan hopen
    rw [fPuts_refused hres hrefused]
    refine ⟨chains, ran_tried hsys (Tried.refl hsys.sound (hsys.usable i))
      (Or.inr (Or.inl ⟨str, rfl⟩)) fun a a' ha he => ?_⟩
    simp only [Call.effect, if_true] at he
    cases he

theorem ran_sync (hsys : System g s chains)
    (hinfo : g.fsType = .fat32 → g.volbase + 1 < g.fatbase) (tm : Nat) :
    Ran g s chains (.sync i tm, ((Call.sync i tm).run g s).1) ((Call.sync i tm).run g s).2
      chains := by
  obtain ⟨hset, -⟩ := fSync_settled hsys.sound (hsys.usable i) (hsys.listed i) hinfo
    (hsys.attached i) tm
  show Ran g s chains (.sync i tm, .done (fSync g tm s.vol (s.files i)).1)
    (s.set i (fSync g tm s.vol (s.files i)).2.1 (fSync g tm s.vol (s.files i)).2.2) chains
  refine ⟨hsys.settled hset, (hset.beside hsys).fewer, fun j a a' ha he => ?_⟩
  have hsame : a = a' := Option.some.inj he
  exact hsame ▸ ha.settled hsys hset

/-- A look at a sector of a directory. -/
theorem ran_visit (hsys : System g s chains) {b : Nat} (hb : g.home b) (hbt : ¬g.InTable b)
    (hoff : ∀ c, ForData g s.vol chains c → ¬g.InCluster c b) :
    Ran g s chains (.visit b, ((Call.visit b).run g s).1) ((Call.visit b).run g s).2 chains := by
  obtain ⟨ht, -, -⟩ := through_move hsys.sound.coherent hb
  obtain ⟨hs', hlinks, hdata⟩ := hsys.sound.through hbt hoff ht
  have hfewer : ∀ c, ForData g (moveWindow g s.vol b).2 chains c → ForData g s.vol chains c :=
    fun c hc => hc.of_links hlinks
  have hkept : ∀ j b', g.Owns (chains j) b' →
      (moveWindow g s.vol b).2.disk.data b' = s.vol.disk.data b' := by
    rintro j b' ⟨c, hc, hin⟩
    exact hdata c b' (Or.inr ⟨j, hc⟩) hin
  refine ⟨⟨hs', hsys.whole.after ht.after, fun j => (hsys.usable j).of_data (hkept j),
    fun j => (hsys.listed j).moved hfewer rfl rfl, hsys.attached⟩, hfewer,
    fun j a a' ha he => ?_⟩
  have hsame : a = a' := Option.some.inj he
  subst hsame
  refine ⟨ha.fine, ?_, ha.pos⟩
  rw [← ha.bytes]
  exact content_of_data (hsys.usable j).held.room (hkept j)

/-! ## Whole runs -/

theorem Call.run_ran (hsys : System g s chains)
    (hinfo : g.fsType = .fat32 → g.volbase + 1 < g.fatbase) {c : Call ι}
    (hc : c.Proper g s.vol chains) :
    ∃ chains', Ran g s chains (c, (c.run g s).1) (c.run g s).2 chains' := by
  cases c with
  | write i buff => exact ran_write hsys hc
  | puts i str => exact ran_puts hsys str
  | sync i tm => exact ⟨chains, ran_sync hsys hinfo tm⟩
  | visit b => exact ⟨chains, ran_visit hsys hc.1 hc.2.1 hc.2.2⟩

/-- Over any run of calls the system stands, and a file no call failed on holds what its
own answers say. -/
theorem files_over_run (hinfo : g.fsType = .fat32 → g.volbase + 1 < g.fatbase)
    {cs : List (Call ι)} (hsys : System g s chains) (hcs : ∀ c ∈ cs, c.Proper g s.vol chains) :
    ∃ chains', System g (Call.runAll g s cs).2 chains' ∧
      ∀ i a a', Holds g s chains i a → Call.effects i a (Call.runAll g s cs).1 = some a' →
        Holds g (Call.runAll g s cs).2 chains' i a' := by
  induction cs generalizing s chains with
  | nil =>
      refine ⟨chains, hsys, fun i a a' ha he => ?_⟩
      have hsame : a = a' := Option.some.inj he
      exact hsame ▸ ha
  | cons c cs ih =>
      obtain ⟨chains₁, hran⟩ := Call.run_ran hsys hinfo (hcs c List.mem_cons_self)
      obtain ⟨chains₂, hsys₂, hholds₂⟩ := ih hran.system fun c' hc' =>
        (hcs c' (List.mem_cons_of_mem c hc')).fewer hran.fewer
      refine ⟨chains₂, hsys₂, fun i a a' ha he => ?_⟩
      obtain ⟨a₁, he₁, he₂⟩ := Option.bind_eq_some_iff.mp he
      exact hholds₂ i a₁ a' (hran.holds i a a₁ ha he₁) he₂

/-- Two new files on a volume of zeros, whose eighth transfer fails. -/
def twoFiles : Disk Bool := ⟨mounted (faulty 7), fun i => .fresh 3 (if i then 0 else 32) 1⟩

theorem twoFiles_system : System floppy twoFiles fun _ => [] where
  sound := mounted_sound (.empty _)
  whole := floppy_whole _
  usable i := fresh_usable 3 _ 1
  listed i := listed_root (Apart.empty _) (show floppy.home 3 by decide)
    (show ¬floppy.InTable 3 by decide) (show 3 < 4 by decide) (by revert i; decide)
  attached _ := rfl

/-- The text for one of them is lost, and the other one is as it was written. -/
theorem twoFiles_hold :
    let run := Call.runAll floppy twoFiles
      [.write true [1, 2], .sync true 0, .puts false [72, 10], .write true [3]]
    run.1.map Prod.snd = [.wrote .ok 2, .done .ok, .put none, .wrote .ok 1] ∧
      ∃ chains' : Bool → List Nat,
        (run.2.files true).content floppy run.2.vol (chains' true) = [1, 2, 3] := by
  intro run
  have hproper : ∀ c ∈ [Call.write true [1, 2], .sync true 0, .puts false [72, 10],
      .write true [3]], c.Proper floppy twoFiles.vol fun _ => [] := by
    simp [Call.Proper]
  have hanswers : run.1.map Prod.snd = [.wrote .ok 2, .done .ok, .put none, .wrote .ok 1] := by
    decide +kernel
  have heffects : Call.effects true ⟨[], 0⟩ run.1 = some ⟨[1, 2, 3], 3⟩ := by
    decide +kernel
  obtain ⟨chains', -, hholds⟩ := files_over_run (by decide) twoFiles_system hproper
  exact ⟨hanswers, chains', (hholds true ⟨[], 0⟩ _ ⟨rfl, rfl, rfl⟩ heffects).bytes⟩

end Fat
end ImuFirmware
