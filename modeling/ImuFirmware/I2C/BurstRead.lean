/-
When a burst read is exact.

`I2C_Read_Multi_Reg` disables ACK for its last byte only after it has read the one
before, and by then the hardware may already be receiving.  The read is exact in
the runs where the last byte completes with ACK clear, and in no others.
-/
import ImuFirmware.I2C.RegisterFile

namespace ImuFirmware

open Polling

variable {δ : Type}

/-- Byte number `count` completes with ACK clear.  `n` bytes were on the bus before
the call. -/
def LastNacked (n count : Nat) : Guard sig (World δ) := fun _ s move =>
  move = .machine → ∀ a, s.phase = .receiver a → s.clocked.length + 1 = n + count →
    s.ack = false

theorem lastNacked_paced (n count : Nat) : Paced n count (LastNacked (δ := δ) n count) :=
  fun _ _ hg a hp => Or.inl (hg rfl a hp)

variable [Device δ]

/-- The read of `count` bytes from `d` into `buf` that led from `s` to `t` took
those bytes and no others. -/
structure ExactRead (d : δ) (buf count : Nat) (s t : World δ) : Prop where
  buffer : ∀ i, i < count → t.mem (buf + i) = stream d i
  clocked : t.clocked = s.clocked ++ exactLog d count
  drained : t.rx = []
  halted : ∀ a, t.phase ≠ .receiver a

theorem writeBytes_taken (d : δ) (m : Nat → Byte) (buf : Nat) {i count : Nat}
    (hi : i < count) : writeBytes m buf (taken d count) (buf + i) = stream d i := by
  have hlen : i < (List.range count).length := by rwa [List.length_range]
  rw [writeBytes, if_pos (Nat.le_add_right buf i), Nat.add_sub_cancel_left, taken,
    List.getElem?_map, List.getElem?_eq_getElem hlen, List.getElem_range]
  rfl

theorem exactLog_last (d : δ) (l : List (Byte × Bool)) {count : Nat} (hcount : 0 < count) :
    (l ++ exactLog d count)[l.length + count - 1]? = some (stream d (count - 1), false) := by
  have hpre : (l ++ (taken d (count - 1)).map (·, true)).length = l.length + count - 1 := by
    rw [List.length_append, List.length_map, length_taken]
    omega
  rw [exactLog, ← List.append_assoc, ← hpre, List.getElem?_concat_length]

theorem clocked_prefix {α : Type} {ms : List Move} {c d : Config sig (World δ) α}
    (h : (machine δ).run ms c = some d) : c.state.clocked <+: d.state.clocked := by
  refine (machine δ).run_rel (R := fun s t => s.clocked <+: t.clocked)
    (fun _ => List.prefix_refl _) (fun _ _ _ h₁ h₂ => h₁.trans h₂) ?_ ?_
    (fun _ _ ht => World.hwStep_clocked ht) h
  · intro o s
    cases o with
    | writeDr b =>
        obtain ⟨p, hp⟩ := s.writeDr_phase b
        show s.clocked <+: (s.writeDr b).clocked
        rw [hp]
    | _ => exact List.prefix_refl _
  · intro w s
    cases w <;> exact List.prefix_refl _

/-- A run that leaves byte number `count` unacknowledged met the guard throughout. -/
theorem keeps_lastNacked {α : Type} {n count : Nat} (hcount : 0 < count) {ms : List Move}
    {c d : Config sig (World δ) α} (hrun : (machine δ).run ms c = some d)
    (hlast : ∀ b, d.state.clocked[n + count - 1]? ≠ some (b, true)) :
    (machine δ).Keeps (LastNacked n count) ms c := by
  induction ms generalizing c with
  | nil => trivial
  | cons m ms ih =>
      obtain ⟨e, he, hd⟩ := Option.bind_eq_some_iff.mp hrun
      refine ⟨?_, fun e' he' => ?_⟩
      · rintro rfl a hp hlen
        obtain ⟨t, ht, rfl⟩ := (machine δ).move_machine he
        by_contra hack
        rw [Bool.not_eq_false] at hack
        obtain ⟨b, hb⟩ := World.hwStep_receiver_clocked hp ht
        have hpre : t.clocked <+: d.state.clocked := clocked_prefix hd
        have hidx : n + count - 1 = c.state.clocked.length := by omega
        apply hlast b
        obtain ⟨rest, hrest⟩ := hpre
        rw [← hrest, hb, hack, hidx, List.append_assoc, List.getElem?_append_right
          (Nat.le_refl _), Nat.sub_self]
        rfl
      · obtain rfl := Option.some.inj (he.symm.trans he')
        exact ih hd

/-- A call of `I2C_Read_Multi_Reg` that returns was exact if and only if its last
byte completed with ACK clear. -/
theorem readMultiReg_exact_iff {s t : World δ} {device register count : Byte} {buf : Nat}
    {d e : δ} {ms : List Move} (hs : Quiet s.devs s.mem s.clocked s)
    (hcount : 0 < count.toNat) (hd : s.devs (device.setWidth 7) = some d)
    (he : pointed register d = some e)
    (hret : (machine δ).Returns ms (i2cReadMultiReg device register buf count) s () t) :
    ExactRead e buf count.toNat s t ↔
      (machine δ).Keeps (LastNacked s.clocked.length count.toNat) ms
        ⟨i2cReadMultiReg device register buf count, s, []⟩ := by
  constructor
  · intro hexact
    obtain ⟨log, hrun⟩ := (machine δ).returns_iff.mp hret
    refine keeps_lastNacked hcount hrun fun b hb => ?_
    rw [hexact.clocked, exactLog_last e s.clocked hcount] at hb
    exact nomatch hb
  · intro hkeep
    obtain ⟨d', e', hd', he', hq⟩ :=
      wp_returns (wp_i2cReadMultiReg hcount (lastNacked_paced _ _) hs) hkeep hret
    obtain rfl := Option.some.inj (hd.symm.trans hd')
    obtain rfl := Option.some.inj (he.symm.trans he')
    refine ⟨fun i hi => ?_, hq.clocked, hq.rx, fun a hp => ?_⟩
    · rw [hq.mem, writeBytes_taken e s.mem buf hi]
    · rcases hq.phase with hidle | ⟨hstill, -⟩
      · rw [hp] at hidle
        exact nomatch hidle
      · rw [hp] at hstill
        exact nomatch hstill

/-! ## Two runs of a read of two bytes -/

/-- A device whose registers hold their own numbers, alone on the bus at 0x53. -/
def countingFile : RegisterFile := ⟨fun r => r, 0x00#8, false⟩

def countingBus : World RegisterFile :=
  World.boot (Function.update (fun _ => none) 0x53#7 (some countingFile)) fun _ => 0x00#8

/-- Up to the address byte of the read transfer, the hardware in turn. -/
def pointerMoves : List Move :=
  [.program, .program, .machine, .program, .program, .machine, .program,
    .program, .machine, .program, .program,
    .machine, .program, .program, .machine, .program, .program, .machine, .program]

/-- The second byte completes before the driver has read the first. -/
def earlyMoves : List Move :=
  pointerMoves ++ [.program, .machine, .machine, .program, .program, .program,
    .program, .program, .machine, .program, .program, .program, .program]

/-- The second byte completes in its own wait loop. -/
def timelyMoves : List Move :=
  pointerMoves ++ [.program, .machine, .program, .program, .program,
    .program, .program, .machine, .program, .program, .program, .program]

theorem readMultiReg_exact_iff_counting :
    ∃ t, (machine RegisterFile).Returns timelyMoves
        (i2cReadMultiReg 0x53#8 0x32#8 0 2#8) countingBus () t ∧
      (ExactRead ⟨fun r => r, 0x32#8, false⟩ 0 2 countingBus t ↔
        (machine RegisterFile).Keeps (LastNacked 0 2) timelyMoves
          ⟨i2cReadMultiReg 0x53#8 0x32#8 0 2#8, countingBus, []⟩) := by
  have hrun : (((machine RegisterFile).run timelyMoves
      ⟨i2cReadMultiReg 0x53#8 0x32#8 0 2#8, countingBus, []⟩).bind Config.result).map
      (fun r => r.2.rx) = some [] := by
    decide +kernel
  obtain ⟨⟨u, t⟩, ht, -⟩ := Option.map_eq_some_iff.mp hrun
  refine ⟨t, ht, ?_⟩
  exact readMultiReg_exact_iff (d := countingFile) (quiet_boot _ _) (by decide) rfl rfl ht

/-- The device is left a byte ahead of the driver's count: a third byte was clocked out
and sits in the peripheral. -/
theorem readMultiReg_overrun :
    ∃ t, (machine RegisterFile).Returns earlyMoves
        (i2cReadMultiReg 0x53#8 0x32#8 0 2#8) countingBus () t ∧
      t.clocked = [(0x32#8, true), (0x33#8, true), (0x34#8, false)] ∧ t.rx = [0x34#8] ∧
      ¬ ExactRead ⟨fun r => r, 0x32#8, false⟩ 0 2 countingBus t := by
  have hrun : (((machine RegisterFile).run earlyMoves
      ⟨i2cReadMultiReg 0x53#8 0x32#8 0 2#8, countingBus, []⟩).bind Config.result).map
      (fun r => (r.2.clocked, r.2.rx)) =
        some ([(0x32#8, true), (0x33#8, true), (0x34#8, false)], [0x34#8]) := by
    decide +kernel
  obtain ⟨⟨u, t⟩, ht, hobs⟩ := Option.map_eq_some_iff.mp hrun
  obtain ⟨hclocked, hrx⟩ := Prod.mk.inj hobs
  refine ⟨t, ht, hclocked, hrx, fun hexact => ?_⟩
  have hdrained := hexact.drained
  rw [hrx] at hdrained
  exact nomatch hdrained

end ImuFirmware
