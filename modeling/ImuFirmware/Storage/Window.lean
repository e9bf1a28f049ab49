/-
A drive of blocks whose transfers may fail, and a window of one block on it.

A failed transfer leaves anything behind: in the buffer if it was a read, in the blocks
it was for if it was a write.  The window is written back before it moves, and a block
may have mirrors, written after it without a look at how that went.  What a reader of
the drive finds through the window, its `view`, survives all of this.
-/
import Mathlib.Logic.Function.Basic

namespace Storage

variable {β : Type}

/-- `faults n` is what transfer `n` leaves behind where it fails, and `none` where it
does not fail. -/
structure Drive (β : Type) where
  data : Nat → β
  faults : Nat → Option (Nat → β)
  transfers : Nat

namespace Drive

/-- Whether the blocks from `block` were read, and the buffer afterwards. -/
def read (d : Drive β) (block : Nat) : Bool × (Nat → β) × Drive β :=
  match d.faults d.transfers with
  | none => (true, fun i => d.data (block + i), { d with transfers := d.transfers + 1 })
  | some junk => (false, junk, { d with transfers := d.transfers + 1 })

def put (d : Drive β) (buf : Nat → β) (block count : Nat) : Drive β :=
  { d with
    data := fun b => if block ≤ b ∧ b < block + count then buf (b - block) else d.data b
    transfers := d.transfers + 1 }

def write (d : Drive β) (buf : Nat → β) (block count : Nat) : Bool × Drive β :=
  match d.faults d.transfers with
  | none => (true, d.put buf block count)
  | some junk => (false, d.put junk block count)

/-- Waiting for the drive to be done, which counts as a transfer. -/
def sync (d : Drive β) : Bool × Drive β :=
  ((d.faults d.transfers).isNone, { d with transfers := d.transfers + 1 })

/-- No transfer fails from here on. -/
def Reliable (d : Drive β) : Prop := ∀ n, d.transfers ≤ n → d.faults n = none

/-- The drive after `d'` is one that has gone on from `d`. -/
def After (d d' : Drive β) : Prop := d'.faults = d.faults ∧ d.transfers ≤ d'.transfers

variable {d d' : Drive β} {buf : Nat → β} {block count b : Nat}

theorem After.refl (d : Drive β) : After d d := ⟨rfl, Nat.le_refl _⟩

theorem After.trans {d'' : Drive β} (h : After d d') (h' : After d' d'') : After d d'' :=
  ⟨h'.1.trans h.1, Nat.le_trans h.2 h'.2⟩

theorem Reliable.after (h : d.Reliable) (hd : After d d') : d'.Reliable := by
  intro n hn
  rw [hd.1]
  exact h n (Nat.le_trans hd.2 hn)

theorem after_put (d : Drive β) (buf : Nat → β) (block count : Nat) :
    After d (d.put buf block count) := ⟨rfl, Nat.le_succ _⟩

theorem put_data_of_outside (h : ¬(block ≤ b ∧ b < block + count)) :
    (d.put buf block count).data b = d.data b := if_neg h

theorem put_data_one (d : Drive β) (buf : Nat → β) (block : Nat) :
    (d.put buf block 1).data block = buf 0 := by
  have hself : block ≤ block ∧ block < block + 1 := ⟨Nat.le_refl _, Nat.lt_succ_self _⟩
  show (if block ≤ block ∧ block < block + 1 then buf (block - block) else _) = _
  rw [if_pos hself, Nat.sub_self]

theorem put_data_one_of_ne (h : b ≠ block) : (d.put buf block 1).data b = d.data b :=
  put_data_of_outside (by omega)

theorem read_cases (d : Drive β) (block : Nat) :
    (∃ d', d.read block = (true, (fun i => d.data (block + i)), d') ∧
      After d d' ∧ d'.data = d.data) ∨
    (¬d.Reliable ∧ ∃ junk d', d.read block = (false, junk, d') ∧
      After d d' ∧ d'.data = d.data) := by
  unfold read
  cases hf : d.faults d.transfers with
  | none => exact Or.inl ⟨_, rfl, ⟨rfl, Nat.le_succ _⟩, rfl⟩
  | some junk =>
      refine Or.inr ⟨fun hr => ?_, _, _, rfl, ⟨rfl, Nat.le_succ _⟩, rfl⟩
      rw [hr _ (Nat.le_refl _)] at hf
      cases hf

theorem write_cases (d : Drive β) (buf : Nat → β) (block count : Nat) :
    d.write buf block count = (true, d.put buf block count) ∨
    (¬d.Reliable ∧ ∃ junk, d.write buf block count = (false, d.put junk block count)) := by
  unfold write
  cases hf : d.faults d.transfers with
  | none => exact Or.inl rfl
  | some junk =>
      refine Or.inr ⟨fun hr => ?_, junk, rfl⟩
      rw [hr _ (Nat.le_refl _)] at hf
      cases hf

theorem after_write (d : Drive β) (buf : Nat → β) (block count : Nat) :
    After d (d.write buf block count).2 := by
  obtain h | ⟨-, junk, h⟩ := write_cases d buf block count
  · rw [h]; exact after_put ..
  · rw [h]; exact after_put ..

theorem write_data_of_outside (h : ¬(block ≤ b ∧ b < block + count)) :
    (d.write buf block count).2.data b = d.data b := by
  obtain hw | ⟨-, junk, hw⟩ := write_cases d buf block count
  · rw [hw]; exact put_data_of_outside h
  · rw [hw]; exact put_data_of_outside h

theorem sync_cases (d : Drive β) :
    (d.sync).2.data = d.data ∧ After d (d.sync).2 ∧ ((d.sync).1 = true ∨ ¬d.Reliable) := by
  refine ⟨rfl, ⟨rfl, Nat.le_succ _⟩, ?_⟩
  unfold sync
  cases hf : d.faults d.transfers with
  | none => exact Or.inl rfl
  | some junk =>
      refine Or.inr fun hr => ?_
      rw [hr _ (Nat.le_refl _)] at hf
      cases hf

/-- One block written to several places, whatever comes of it. -/
def spread (d : Drive β) (block : β) : List Nat → Drive β
  | [] => d
  | m :: ms => ((d.write (fun _ => block) m 1).2).spread block ms

theorem after_spread (d : Drive β) (block : β) (ms : List Nat) :
    After d (d.spread block ms) := by
  induction ms generalizing d with
  | nil => exact After.refl d
  | cons m ms ih => exact (after_write d _ m 1).trans (ih _)

theorem spread_data_of_notMem {block : β} {ms : List Nat} (h : b ∉ ms) :
    (d.spread block ms).data b = d.data b := by
  induction ms generalizing d with
  | nil => rfl
  | cons m ms ih =>
      rw [spread, ih (List.not_mem_of_not_mem_cons h)]
      have hne : b ≠ m := List.ne_of_not_mem_cons h
      exact write_data_of_outside (by omega)

theorem spread_data_of_mem (hr : d.Reliable) {block : β} {ms : List Nat} (h : b ∈ ms) :
    (d.spread block ms).data b = block := by
  induction ms generalizing d with
  | nil => cases h
  | cons m ms ih =>
      have hlater : (d.write (fun _ => block) m 1).2.Reliable := hr.after (after_write ..)
      by_cases hrest : b ∈ ms
      · exact ih hlater hrest
      · obtain rfl : b = m := (List.mem_cons.mp h).resolve_right hrest
        rw [spread, spread_data_of_notMem hrest]
        obtain hw | ⟨hbad, -⟩ := write_cases d (fun _ => block) b 1
        · rw [hw]; exact put_data_one d (fun _ => block) b
        · exact absurd hr hbad

end Drive

/-- The block `winsect` of `disk` is held in `win`, changed if `wflag`. -/
structure Window (β : Type) where
  win : β
  winsect : Nat
  wflag : Bool
  disk : Drive β

namespace Window

/-- What a reader finds in a block: the window where it lies there, else the drive. -/
def view (w : Window β) (b : Nat) : β := if b = w.winsect then w.win else w.disk.data b

/-- Writes the window back if it was changed. -/
def flush (mirrors : Nat → List Nat) (w : Window β) : Bool × Window β :=
  if w.wflag then
    match w.disk.write (fun _ => w.win) w.winsect 1 with
    | (true, d) => (true, { w with wflag := false, disk := d.spread w.win (mirrors w.winsect) })
    | (false, d) => (false, { w with disk := d })
  else (true, w)

/-- Moves the window, to `nowhere` if the block cannot be read. -/
def move (mirrors : Nat → List Nat) (nowhere : Nat) (w : Window β) (b : Nat) :
    Bool × Window β :=
  if b = w.winsect then (true, w)
  else
    match w.flush mirrors with
    | (false, w) => (false, w)
    | (true, w) =>
        match w.disk.read b with
        | (true, buf, d) => (true, { w with win := buf 0, winsect := b, disk := d })
        | (false, buf, d) => (false, { w with win := buf 0, winsect := nowhere, disk := d })

def edit (w : Window β) (f : β → β) : Window β := { w with win := f w.win, wflag := true }

/-- The window lies on a `home` block, with which it agrees while it is unchanged, or is
`parked` with nothing to write back. -/
structure Coherent (home parked : Nat → Prop) (w : Window β) : Prop where
  placed : parked w.winsect ∨ home w.winsect
  clean : w.wflag = false → ¬parked w.winsect → w.disk.data w.winsect = w.win
  lost : parked w.winsect → w.wflag = false

/-- No home block is a parking place, no mirror is a home block, and none is a mirror of
two. -/
structure Layout (home parked : Nat → Prop) (mirrors : Nat → List Nat) : Prop where
  somewhere : ∀ b, home b → ¬parked b
  apart : ∀ b, home b → ∀ m ∈ mirrors b, ¬home m
  own : ∀ b c, home b → home c → b ≠ c → ∀ m ∈ mirrors b, m ∉ mirrors c

variable {home parked : Nat → Prop} {nowhere : Nat} {mirrors : Nat → List Nat} {w : Window β}
  {b : Nat}

theorem view_self (w : Window β) : w.view w.winsect = w.win := if_pos rfl

theorem view_of_ne (h : b ≠ w.winsect) : w.view b = w.disk.data b := if_neg h

/-- With an unchanged window the drive holds what a reader finds. -/
theorem data_of_clean (hl : Layout home parked mirrors) (hw : Coherent home parked w)
    (hf : w.wflag = false) (hb : home b) : w.disk.data b = w.view b := by
  by_cases hself : b = w.winsect
  · have hsome : ¬parked w.winsect := hl.somewhere _ (hself ▸ hb)
    rw [hself, hw.clean hf hsome, view_self]
  · rw [view_of_ne hself]

theorem flush_clean (h : w.wflag = false) : w.flush mirrors = (true, w) := by
  rw [flush, h]; rfl

/-- The outcomes of writing back: nothing to do, done, or failed with the window kept. -/
theorem flush_cases (mirrors : Nat → List Nat) (w : Window β) :
    (w.wflag = false ∧ w.flush mirrors = (true, w)) ∨
    (w.wflag = true ∧ w.flush mirrors = (true, { w with
      wflag := false
      disk := (w.disk.put (fun _ => w.win) w.winsect 1).spread w.win (mirrors w.winsect) })) ∨
    (w.wflag = true ∧ ¬w.disk.Reliable ∧ ∃ junk, w.flush mirrors =
      (false, { w with disk := w.disk.put junk w.winsect 1 })) := by
  cases hf : w.wflag with
  | false => exact Or.inl ⟨rfl, flush_clean hf⟩
  | true =>
      refine Or.inr ?_
      obtain h | ⟨hbad, junk, h⟩ := w.disk.write_cases (fun _ => w.win) w.winsect 1
      · refine Or.inl ⟨rfl, ?_⟩
        rw [flush, hf, h]; rfl
      · refine Or.inr ⟨rfl, hbad, junk, ?_⟩
        rw [flush, hf, h]; rfl

theorem after_flush (mirrors : Nat → List Nat) (w : Window β) :
    w.disk.After (w.flush mirrors).2.disk := by
  obtain ⟨-, h⟩ | ⟨-, h⟩ | ⟨-, -, junk, h⟩ := flush_cases mirrors w
  · rw [h]; exact Drive.After.refl _
  · rw [h]; exact (Drive.after_put ..).trans (Drive.after_spread ..)
  · rw [h]; exact Drive.after_put ..

@[simp] theorem flush_winsect (mirrors : Nat → List Nat) (w : Window β) :
    (w.flush mirrors).2.winsect = w.winsect := by
  obtain ⟨-, h⟩ | ⟨-, h⟩ | ⟨-, -, junk, h⟩ := flush_cases mirrors w <;> rw [h]

@[simp] theorem flush_win (mirrors : Nat → List Nat) (w : Window β) :
    (w.flush mirrors).2.win = w.win := by
  obtain ⟨-, h⟩ | ⟨-, h⟩ | ⟨-, -, junk, h⟩ := flush_cases mirrors w <;> rw [h]

/-- Afterwards there is nothing left to write. -/
theorem flush_wflag (h : (w.flush mirrors).1 = true) : (w.flush mirrors).2.wflag = false := by
  obtain ⟨hf, h'⟩ | ⟨-, h'⟩ | ⟨-, -, junk, h'⟩ := flush_cases mirrors w
  · rw [h']; exact hf
  · rw [h']
  · rw [h'] at h; cases h

theorem flush_of_reliable (mirrors : Nat → List Nat) (hr : w.disk.Reliable) :
    (w.flush mirrors).1 = true := by
  obtain ⟨-, h⟩ | ⟨-, h⟩ | ⟨-, hbad, -⟩ := flush_cases mirrors w
  · rw [h]
  · rw [h]
  · exact absurd hr hbad

theorem Coherent.home_of_changed (hw : Coherent home parked w) (h : w.wflag = true) :
    home w.winsect := by
  obtain hp | hp := hw.placed
  · rw [hw.lost hp] at h
    cases h
  · exact hp

/-- Blocks that are neither in the window nor mirrors stay on the drive. -/
theorem flush_data (hl : Layout home parked mirrors) (hw : Coherent home parked w)
    (hb : home b) (hne : b ≠ w.winsect) :
    (w.flush mirrors).2.disk.data b = w.disk.data b := by
  obtain ⟨-, h⟩ | ⟨hf, h⟩ | ⟨hf, -, junk, h⟩ := flush_cases mirrors w
  · rw [h]
  · have hm : b ∉ mirrors w.winsect := fun hm => hl.apart _ (hw.home_of_changed hf) _ hm hb
    rw [h]
    show ((w.disk.put _ _ 1).spread _ _).data b = _
    rw [Drive.spread_data_of_notMem hm, Drive.put_data_one_of_ne hne]
  · rw [h]
    exact Drive.put_data_one_of_ne hne

theorem flush_view (hl : Layout home parked mirrors) (hw : Coherent home parked w)
    (hb : home b) : (w.flush mirrors).2.view b = w.view b := by
  by_cases hself : b = w.winsect
  · subst hself
    have hsame := view_self (w.flush mirrors).2
    rw [flush_winsect, flush_win] at hsame
    rw [hsame, view_self]
  · have hne : b ≠ (w.flush mirrors).2.winsect := by rw [flush_winsect]; exact hself
    rw [view_of_ne hne, view_of_ne hself, flush_data hl hw hb hself]

theorem flush_coherent (hl : Layout home parked mirrors) (hw : Coherent home parked w) :
    Coherent home parked (w.flush mirrors).2 := by
  obtain ⟨-, h⟩ | ⟨hf, h⟩ | ⟨hf, -, junk, h⟩ := flush_cases mirrors w
  · rw [h]; exact hw
  · have hhome := hw.home_of_changed hf
    rw [h]
    refine ⟨hw.placed, fun _ _ => ?_, fun _ => rfl⟩
    show ((w.disk.put _ _ 1).spread _ _).data w.winsect = w.win
    rw [Drive.spread_data_of_notMem fun hm => hl.apart _ hhome _ hm hhome]
    exact Drive.put_data_one w.disk (fun _ => w.win) w.winsect
  · rw [h]
    exact ⟨hw.placed, fun hclean => absurd (hf.symm.trans hclean) Bool.noConfusion, hw.lost⟩

/-- The outcomes of a move: already there, there after a flush and a read, or failed
with the window kept, or failed with the window nowhere and nothing unwritten. -/
theorem move_cases (mirrors : Nat → List Nat) (nowhere : Nat) (w : Window β) (b : Nat) :
    (b = w.winsect ∧ w.move mirrors nowhere b = (true, w)) ∨
    (b ≠ w.winsect ∧ (w.flush mirrors).1 = true ∧
      ∃ d, (w.flush mirrors).2.disk.After d ∧ d.data = (w.flush mirrors).2.disk.data ∧
        w.move mirrors nowhere b = (true, ⟨d.data b, b, false, d⟩)) ∨
    (b ≠ w.winsect ∧ ¬w.disk.Reliable ∧ (w.flush mirrors).1 = true ∧
      ∃ junk d, (w.flush mirrors).2.disk.After d ∧ d.data = (w.flush mirrors).2.disk.data ∧
        w.move mirrors nowhere b = (false, ⟨junk, nowhere, false, d⟩)) ∨
    (b ≠ w.winsect ∧ ¬w.disk.Reliable ∧
      w.move mirrors nowhere b = (false, (w.flush mirrors).2)) := by
  by_cases hself : b = w.winsect
  · exact Or.inl ⟨hself, if_pos hself⟩
  refine Or.inr ?_
  have hmove : w.move mirrors nowhere b = _ := if_neg hself
  cases hflush : w.flush mirrors with
  | mk ok w' =>
    rw [hflush] at hmove
    cases ok with
    | false =>
        refine Or.inr (Or.inr ⟨hself, fun hr => ?_, hmove⟩)
        have := flush_of_reliable mirrors hr
        rw [hflush] at this
        cases this
    | true =>
        have hwritten : w'.wflag = false := by
          have hdone : (w.flush mirrors).2.wflag = false := flush_wflag (by rw [hflush])
          rwa [hflush] at hdone
        obtain ⟨d, hread, hafter, hdata⟩ | ⟨hbad, junk, d, hread, hafter, hdata⟩ :=
          w'.disk.read_cases b
        · refine Or.inl ⟨hself, rfl, d, hafter, hdata, ?_⟩
          rw [hmove]
          simp only [hread, hwritten, hdata, Nat.add_zero]
        · refine Or.inr (Or.inl ⟨hself, fun hr => hbad ?_, rfl, junk 0, d, hafter, hdata, ?_⟩)
          · have := after_flush mirrors w
            rw [hflush] at this
            exact hr.after this
          · rw [hmove]
            simp only [hread, hwritten]

theorem after_move (w : Window β) (b : Nat) :
    w.disk.After (w.move mirrors nowhere b).2.disk := by
  have hflush := after_flush mirrors w
  obtain ⟨-, h⟩ | ⟨-, -, d, hd, -, h⟩ | ⟨-, -, -, junk, d, hd, -, h⟩ | ⟨-, -, h⟩ :=
    move_cases mirrors nowhere w b
  · rw [h]; exact Drive.After.refl _
  · rw [h]; exact hflush.trans hd
  · rw [h]; exact hflush.trans hd
  · rw [h]; exact hflush

theorem move_of_reliable (mirrors : Nat → List Nat) (nowhere b : Nat) (hr : w.disk.Reliable) :
    (w.move mirrors nowhere b).1 = true := by
  obtain ⟨-, h⟩ | ⟨-, -, d, -, -, h⟩ | ⟨-, hbad, -⟩ | ⟨-, hbad, -⟩ :=
    move_cases mirrors nowhere w b
  · rw [h]
  · rw [h]
  · exact absurd hr hbad
  · exact absurd hr hbad

theorem move_winsect (h : (w.move mirrors nowhere b).1 = true) :
    (w.move mirrors nowhere b).2.winsect = b := by
  obtain ⟨hself, h'⟩ | ⟨-, -, d, -, -, h'⟩ | ⟨-, -, -, junk, d, -, -, h'⟩ | ⟨-, -, h'⟩ :=
    move_cases mirrors nowhere w b
  · rw [h']; exact hself.symm
  · rw [h']
  · rw [h'] at h; cases h
  · rw [h'] at h; cases h

theorem move_view (hl : Layout home parked mirrors) (hn : parked nowhere)
    (hw : Coherent home parked w) {c : Nat} (hc : home c) :
    (w.move mirrors nowhere b).2.view c = w.view c := by
  have hsaved : (w.flush mirrors).1 = true → (w.flush mirrors).2.disk.data c = w.view c := by
    intro hok
    rw [← flush_view hl hw hc]
    exact data_of_clean hl (flush_coherent hl hw) (flush_wflag hok) hc
  obtain ⟨-, h⟩ | ⟨-, hok, d, -, hd, h⟩ | ⟨-, -, hok, junk, d, -, hd, h⟩ | ⟨-, -, h⟩ :=
    move_cases mirrors nowhere w b
  · rw [h]
  · rw [h, ← hsaved hok, ← hd]
    show (if c = b then d.data b else d.data c) = d.data c
    split
    · next hcb => rw [hcb]
    · rfl
  · have hsome : c ≠ nowhere := fun h => hl.somewhere c hc (h ▸ hn)
    rw [h, ← hsaved hok, ← hd]
    exact view_of_ne hsome
  · rw [h]
    exact flush_view hl hw hc

theorem move_coherent (hl : Layout home parked mirrors) (hn : parked nowhere)
    (hw : Coherent home parked w) (hb : home b) :
    Coherent home parked (w.move mirrors nowhere b).2 := by
  obtain ⟨-, h⟩ | ⟨-, -, d, -, -, h⟩ | ⟨-, -, -, junk, d, -, -, h⟩ | ⟨-, -, h⟩ :=
    move_cases mirrors nowhere w b
  · rw [h]; exact hw
  · rw [h]; exact ⟨Or.inr hb, fun _ _ => rfl, fun _ => rfl⟩
  · rw [h]; exact ⟨Or.inl hn, fun _ hsome => absurd hn hsome, fun _ => rfl⟩
  · rw [h]; exact flush_coherent hl hw

/-! ### Changing the window -/

theorem edit_view (w : Window β) (f : β → β) :
    (w.edit f).view = Function.update w.view w.winsect (f w.win) := by
  funext c
  by_cases hself : c = w.winsect
  · subst hself
    rw [Function.update_self]
    exact if_pos rfl
  · rw [Function.update_of_ne hself, view_of_ne hself]
    exact if_neg hself

theorem edit_coherent (hl : Layout home parked mirrors) (h : home w.winsect) (f : β → β) :
    Coherent home parked (w.edit f) := by
  refine ⟨Or.inr h, fun hclean => Bool.noConfusion hclean, fun hparked => ?_⟩
  exact absurd hparked (hl.somewhere _ h)

/-! ### The mirrors -/

/-- Every mirror of a block that the window has not changed agrees with it. -/
def Mirrored (home : Nat → Prop) (mirrors : Nat → List Nat) (w : Window β) : Prop :=
  ∀ b, home b → (b = w.winsect → w.wflag = false) →
    ∀ m ∈ mirrors b, w.disk.data m = w.disk.data b

theorem edit_mirrored (h : Mirrored home mirrors w) (f : β → β) :
    Mirrored home mirrors (w.edit f) := by
  intro b hb hsame
  refine h b hb fun hself => ?_
  cases hsame hself

theorem flush_mirrored (hl : Layout home parked mirrors) (hw : Coherent home parked w)
    (hr : w.disk.Reliable) (h : Mirrored home mirrors w) :
    Mirrored home mirrors (w.flush mirrors).2 := by
  obtain ⟨-, hfl⟩ | ⟨hf, hfl⟩ | ⟨-, hbad, -⟩ := flush_cases mirrors w
  · rw [hfl]; exact h
  · rw [hfl]
    intro b hb hsame m hm
    have hhome := hw.home_of_changed hf
    have hput : (w.disk.put (fun _ => w.win) w.winsect 1).Reliable :=
      hr.after (Drive.after_put ..)
    show ((w.disk.put _ _ 1).spread _ _).data m = ((w.disk.put _ _ 1).spread _ _).data b
    have hb' : b ∉ mirrors w.winsect := fun hmem => hl.apart _ hhome _ hmem hb
    rw [Drive.spread_data_of_notMem hb']
    by_cases hself : b = w.winsect
    · subst hself
      rw [Drive.spread_data_of_mem hput hm]
      exact (Drive.put_data_one w.disk (fun _ => w.win) w.winsect).symm
    · have hm' : m ∉ mirrors w.winsect := hl.own b _ hb hhome hself m hm
      have hne : m ≠ w.winsect := fun he => hl.apart b hb m hm (he ▸ hhome)
      rw [Drive.spread_data_of_notMem hm', Drive.put_data_one_of_ne hne,
        Drive.put_data_one_of_ne hself]
      exact h b hb (fun he => absurd he hself) m hm
  · exact absurd hr hbad

theorem move_mirrored (hl : Layout home parked mirrors) (hw : Coherent home parked w)
    (hr : w.disk.Reliable) (h : Mirrored home mirrors w) :
    Mirrored home mirrors (w.move mirrors nowhere b).2 := by
  have hflush := flush_mirrored hl hw hr h
  obtain ⟨-, hm⟩ | ⟨-, hok, d, -, hd, hm⟩ | ⟨-, hbad, -⟩ | ⟨-, hbad, -⟩ :=
    move_cases mirrors nowhere w b
  · rw [hm]; exact h
  · rw [hm]
    intro c hc _ m hmem
    show d.data m = d.data c
    rw [hd]
    exact hflush c hc (fun _ => flush_wflag hok) m hmem
  · exact absurd hr hbad
  · exact absurd hr hbad

end Window

end Storage
