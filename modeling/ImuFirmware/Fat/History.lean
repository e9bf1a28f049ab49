/-
What the table holds after any sequence of accesses.

Reading an entry gives what was last written to it, whatever was accessed in between and
whichever transfers failed.  If none fails, writing the window back puts the same table
on the drive as often as the volume has copies of it.
-/
import ImuFirmware.Fat.Chain

namespace ImuFirmware
namespace Fat

open Storage

/-- An access through the sector window. -/
inductive Access where
  | get (c : Nat)
  | put (c val : Nat)
  | visit (s : Nat)
  | sync

inductive Answer where
  | value (n : Nat)
  | result (res : FResult)

namespace Access

def run (g : Geometry) (v : Volume) : Access → Answer × Volume
  | .get c => (.value (getFat g v c).1, (getFat g v c).2)
  | .put c val => (.result (putFat g v c val).1, (putFat g v c val).2)
  | .visit s => (.result (moveWindow g v s).1, (moveWindow g v s).2)
  | .sync => (.result (syncWindow g v).1, (syncWindow g v).2)

/-- What was answered to each access, and the volume after them all. -/
def runAll (g : Geometry) : Volume → List Access → List (Access × Answer) × Volume
  | v, [] => ([], v)
  | v, a :: as =>
      ((a, (a.run g v).1) :: (runAll g (a.run g v).2 as).1, (runAll g (a.run g v).2 as).2)

/-- The window is only sent to sectors it may lie on. -/
def Proper (g : Geometry) : Access → Prop
  | .visit s => g.home s
  | _ => True

instance (g : Geometry) : DecidablePred (Proper g)
  | .visit s => inferInstanceAs (Decidable (g.home s))
  | .get _ => .isTrue trivial
  | .put _ _ => .isTrue trivial
  | .sync => .isTrue trivial

end Access

/-- The value an entry has by the answers, `e` if none was written. -/
def written (g : Geometry) (c e : Nat) : List (Access × Answer) → Nat
  | [] => e
  | (.put a val, .result .ok) :: log =>
      written g c (if a = c then val % g.fsType.modulus else e) log
  | _ :: log => written g c e log

/-- No write of the entry failed where it straddles two sectors. -/
def Unbroken (g : Geometry) (c : Nat) (log : List (Access × Answer)) : Prop :=
  g.Straddles c → ∀ val, (Access.put c val, Answer.result .diskErr) ∉ log

variable {g : Geometry} {v : Volume} {c : Nat}

theorem sync_home (hv : g.Coherent v) :
    g.Coherent (syncWindow g v).2 ∧ v.disk.After (syncWindow g v).2.disk ∧
      ∀ b, g.home b → (syncWindow g v).2.view b = v.view b := by
  rw [syncWindow_eq hv.winsect_lt]
  exact ⟨Window.flush_coherent g.layout hv, Window.after_flush g.mirrors v.toWindow,
    fun b hb => Window.flush_view g.layout hv hb⟩

theorem entries_of_view {v' : Volume} (h : ∀ b, g.home b → v'.view b = v.view b)
    (hc : g.IsCluster c) : g.entries v' c = g.entries v c :=
  Geometry.entries_congr hc fun _ hi => Geometry.bytes_of_view h hi

theorem putFat_of_not_cluster (hc : ¬g.IsCluster c) (val : Nat) :
    putFat g v c val = (.intErr, v) := by
  have hrange : c < 2 ∨ g.nFatent ≤ c := by
    unfold Geometry.IsCluster at hc
    omega
  rw [putFat, if_pos hrange]

theorem putFat_keeps (hv : g.Coherent v) (d val : Nat) :
    g.Coherent (putFat g v d val).2 ∧ v.disk.After (putFat g v d val).2.disk := by
  by_cases hd : g.IsCluster d
  · have hk := (putFat_entries hv hd val).1
    exact ⟨hk.coherent, hk.after⟩
  · rw [putFat_of_not_cluster hd]
    exact ⟨hv, Drive.After.refl _⟩

theorem run_keeps {a : Access} (hv : g.Coherent v) (ha : a.Proper g) :
    g.Coherent (a.run g v).2 ∧ v.disk.After (a.run g v).2.disk := by
  cases a with
  | get d =>
      have hs := getFat_shown hv d
      exact ⟨hs.coherent, hs.after⟩
  | put d val => exact putFat_keeps hv d val
  | visit s =>
      obtain ⟨hv', hafter, -⟩ := moveWindow_home hv ha
      exact ⟨hv', hafter⟩
  | sync =>
      obtain ⟨hv', hafter, -⟩ := sync_home hv
      exact ⟨hv', hafter⟩

/-- An entry changes only by a write to it. -/
theorem run_entry {a : Access} (hv : g.Coherent v) (ha : a.Proper g) (hc : g.IsCluster c)
    (log : List (Access × Answer)) (hlog : Unbroken g c ((a, (a.run g v).1) :: log)) :
    written g c (g.entries v c) ((a, (a.run g v).1) :: log) =
      written g c (g.entries (a.run g v).2 c) log := by
  cases a with
  | get d =>
      show written g c (g.entries v c) log = written g c (g.entries (getFat g v d).2 c) log
      rw [entries_of_view (getFat_shown hv d).view hc]
  | visit s =>
      show written g c (g.entries v c) log = written g c (g.entries (moveWindow g v s).2 c) log
      rw [entries_of_view (moveWindow_home hv ha).2.2.2 hc]
  | sync =>
      show written g c (g.entries v c) log = written g c (g.entries (syncWindow g v).2 c) log
      rw [entries_of_view (sync_home hv).2.2 hc]
  | put d val =>
      show written g c (g.entries v c) ((.put d val, .result (putFat g v d val).1) :: log) =
        written g c (g.entries (putFat g v d val).2 c) log
      by_cases hd : g.IsCluster d
      · obtain ⟨-, -, hother, ⟨hok, hval⟩ | ⟨herr, -, hkept⟩⟩ := putFat_entries hv hd val
        · rw [hok, written]
          by_cases he : d = c
          · subst he
            rw [if_pos rfl, hval]
          · rw [if_neg he, hother c hc (Ne.symm he)]
        · rw [herr]
          show written g c (g.entries v c) log = _
          by_cases he : d = c
          · subst he
            have hwhole : ¬g.Straddles d := fun hs => hlog hs val (by
              show _ ∈ (Access.put d val, Answer.result (putFat g v d val).1) :: log
              rw [herr]
              exact List.mem_cons_self)
            rw [hkept hwhole]
          · rw [hother c hc (Ne.symm he)]
      · rw [putFat_of_not_cluster hd]
        rfl

theorem runAll_keeps {as : List Access} (hv : g.Coherent v) (ha : ∀ a ∈ as, a.Proper g) :
    g.Coherent (Access.runAll g v as).2 ∧ v.disk.After (Access.runAll g v as).2.disk := by
  induction as generalizing v with
  | nil => exact ⟨hv, Drive.After.refl _⟩
  | cons a as ih =>
      obtain ⟨hv', hafter⟩ := run_keeps hv (ha a List.mem_cons_self)
      obtain ⟨hv'', hafter'⟩ := ih hv' fun b hb => ha b (List.mem_cons_of_mem a hb)
      exact ⟨hv'', hafter.trans hafter'⟩

theorem runAll_entry {as : List Access} (hv : g.Coherent v) (ha : ∀ a ∈ as, a.Proper g)
    (hc : g.IsCluster c) (hlog : Unbroken g c (Access.runAll g v as).1) :
    g.entries (Access.runAll g v as).2 c =
      written g c (g.entries v c) (Access.runAll g v as).1 := by
  induction as generalizing v with
  | nil => rfl
  | cons a as ih =>
      have heq := run_entry hv (ha a List.mem_cons_self) hc _ hlog
      have hrest := ih (run_keeps hv (ha a List.mem_cons_self)).1
        (fun b hb => ha b (List.mem_cons_of_mem a hb))
        fun hs val hmem => hlog hs val (List.mem_cons_of_mem _ hmem)
      exact hrest.trans heq.symm

/-- After any accesses `get_fat` returns what was last written to the entry, or an error. -/
theorem getFat_after_run {as : List Access} (hv : g.Coherent v) (ha : ∀ a ∈ as, a.Proper g)
    (hc : g.IsCluster c) (hlog : Unbroken g c (Access.runAll g v as).1) :
    (getFat g (Access.runAll g v as).2 c).1 =
        written g c (g.entries v c) (Access.runAll g v as).1 ∨
      ((getFat g (Access.runAll g v as).2 c).1 = diskError ∧ ¬v.disk.Reliable) := by
  obtain ⟨hv', hafter⟩ := runAll_keeps hv ha
  have heq := runAll_entry hv ha hc hlog
  obtain ⟨w, -, h | ⟨hbad, h⟩⟩ := getFat_cases hv' hc
  · rw [h]
    exact Or.inl heq
  · rw [h]
    exact Or.inr ⟨rfl, fun hr => hbad (hr.after hafter)⟩

theorem getFat_after_put :
    (getFat floppy (Access.runAll floppy (mounted blank) [.put 2 3, .visit 3, .put 4 5]).2 2).1 =
      3 := by
  have hproper : ∀ a ∈ [Access.put 2 3, .visit 3, .put 4 5], a.Proper floppy := by decide
  have hlog : Unbroken floppy 2
      (Access.runAll floppy (mounted blank) [.put 2 3, .visit 3, .put 4 5]).1 := by
    intro hs
    exact absurd hs (by decide)
  have hc : floppy.IsCluster 2 := by decide
  obtain h | ⟨-, hbad⟩ := getFat_after_run (floppy.mounted_coherent blank) hproper hc hlog
  · exact h
  · exact absurd blank_reliable hbad

/-! ## The table on the drive -/

/-- The bytes of a table that starts at a sector of the drive. -/
def tableOn (d : Drive Sector) (base i : Nat) : UInt8 :=
  byteIn (d.data (base + i / 512)) i

/-- Without faults the copies of the table go along. -/
theorem run_mirrored {a : Access} (hv : g.Coherent v) (hr : v.disk.Reliable)
    (hm : g.Mirrored v) : g.Mirrored (a.run g v).2 := by
  cases a with
  | get d => exact (getFat_shown hv d).mirrored hr hm
  | visit s =>
      show g.Mirrored (moveWindow g v s).2
      rw [moveWindow_eq hv.winsect_lt]
      exact Window.move_mirrored g.layout hv hr hm
  | sync =>
      show g.Mirrored (syncWindow g v).2
      rw [syncWindow_eq hv.winsect_lt]
      exact Window.flush_mirrored g.layout hv hr hm
  | put d val =>
      show g.Mirrored (putFat g v d val).2
      by_cases hd : g.IsCluster d
      · exact (putFat_entries hv hd val).1.mirrored hr hm
      · rw [putFat_of_not_cluster hd]
        exact hm

theorem runAll_mirrored {as : List Access} (hv : g.Coherent v) (ha : ∀ a ∈ as, a.Proper g)
    (hr : v.disk.Reliable) (hm : g.Mirrored v) : g.Mirrored (Access.runAll g v as).2 := by
  induction as generalizing v with
  | nil => exact hm
  | cons a as ih =>
      obtain ⟨hv', hafter⟩ := run_keeps hv (ha a List.mem_cons_self)
      exact ih hv' (fun b hb => ha b (List.mem_cons_of_mem a hb)) (hr.after hafter)
        (run_mirrored hv hr hm)

theorem unbroken_of_reliable {as : List Access} (hv : g.Coherent v)
    (ha : ∀ a ∈ as, a.Proper g) (hr : v.disk.Reliable) (hc : g.IsCluster c) :
    Unbroken g c (Access.runAll g v as).1 := by
  induction as generalizing v with
  | nil => exact fun _ _ hmem => by cases hmem
  | cons a as ih =>
      obtain ⟨hv', hafter⟩ := run_keeps hv (ha a List.mem_cons_self)
      have hrest := ih hv' (fun b hb => ha b (List.mem_cons_of_mem a hb)) (hr.after hafter)
      intro hs val hmem
      obtain he | hmem := List.mem_cons.mp hmem
      · obtain ⟨rfl, hres⟩ := Prod.mk.injEq .. ▸ he
        obtain ⟨-, -, -, ⟨hok, -⟩ | ⟨-, hbad, -⟩⟩ := putFat_entries hv hc val
        · have hres' : Answer.result .diskErr = .result (putFat g v c val).1 := hres
          rw [hok] at hres'
          cases hres'
        · exact hbad hr
      · exact hrest hs val hmem

/-- Without faults, what was written is on the drive in every copy of the table once the
window has been written back. -/
theorem every_copy_holds {as : List Access} (hv : g.Coherent v) (ha : ∀ a ∈ as, a.Proper g)
    (hr : v.disk.Reliable) (hm : g.Mirrored v) (hc : g.IsCluster c) {k : Nat}
    (hk : k < g.nFats) :
    (syncWindow g (Access.runAll g v as).2).1 = .ok ∧
      g.fsType.entry (tableOn (syncWindow g (Access.runAll g v as).2).2.disk
          (g.fatbase + k * g.fsize)) c =
        written g c (g.entries v c) (Access.runAll g v as).1 := by
  obtain ⟨hv', hafter⟩ := runAll_keeps hv ha
  have hr' := hr.after hafter
  have hm' := runAll_mirrored hv ha hr hm
  rw [← runAll_entry hv ha hc (unbroken_of_reliable hv ha hr hc)]
  generalize (Access.runAll g v as).2 = w at hv' hr' hm'
  have hsync := syncWindow_eq (g := g) hv'.winsect_lt
  have hflush := Window.flush_of_reliable g.mirrors hr'
  have hclean := Window.flush_wflag hflush
  have hcoh := Window.flush_coherent g.layout hv'
  have hmir := Window.flush_mirrored g.layout hv' hr' hm'
  rw [hsync, hflush]
  refine ⟨rfl, FsType.entry_congr fun j _ hj => ?_⟩
  have htable := Geometry.inTable_of_byte (g := g) (Nat.lt_of_lt_of_le hj hc.bytes_lt)
  have hhome := g.home_of_inTable htable
  have hfirst : (w.flush g.mirrors).2.disk.data (g.fatbase + j / 512) =
      w.view (g.fatbase + j / 512) := by
    rw [Window.data_of_clean g.layout hcoh hclean hhome, Window.flush_view g.layout hv' hhome]
  have hcopy : (w.flush g.mirrors).2.disk.data (g.fatbase + k * g.fsize + j / 512) =
      (w.flush g.mirrors).2.disk.data (g.fatbase + j / 512) := by
    obtain rfl | rfl : k = 0 ∨ k = 1 := by
      have := g.oneOrTwo
      omega
    · rw [Nat.zero_mul, Nat.add_zero]
    · refine hmir _ hhome (fun _ => hclean) _ (g.mem_mirrors_iff.mpr ⟨?_, htable, by omega⟩)
      have := g.oneOrTwo
      omega
  show byteIn ((w.flush g.mirrors).2.disk.data (g.fatbase + k * g.fsize + j / 512)) j =
    g.bytes w j
  rw [hcopy, hfirst]
  rfl

/-- The second copy of the table holds an entry that was written. -/
theorem copy_after_put :
    FsType.entry .fat12 (tableOn (syncWindow floppy
      (Access.runAll floppy (mounted blank) [.put 2 3, .put 4 5]).2).2.disk 2) 2 = 3 := by
  have hmirrored : floppy.Mirrored (mounted blank) := fun _ _ _ _ _ => rfl
  have hproper : ∀ a ∈ [Access.put 2 3, .put 4 5], a.Proper floppy := by decide
  exact (every_copy_holds (floppy.mounted_coherent blank) hproper blank_reliable hmirrored
    (show floppy.IsCluster 2 by decide) (show 1 < floppy.nFats by decide)).2

end Fat
end ImuFirmware
