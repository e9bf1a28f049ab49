/-
When no wait loop of the driver gets stuck.

`Timely` asks two things of the order of moves, and in every run that meets it no
sequence of calls on responsive devices gets stuck.  Without it a single
`I2C_Read_Reg` can: STOP was requested before the wait for the byte, and once it is
on the bus the event the wait asks for cannot occur.
-/
import ImuFirmware.I2C.Progress
import ImuFirmware.I2C.BurstRead

namespace ImuFirmware

open Polling

variable {δ : Type}

/-- A STOP goes out only while the driver sits in a wait loop that it cannot leave
yet, and the driver enables ACK only while the device is still sending. -/
def Timely : Guard sig (World δ) := fun ctl s move =>
  (move = .machine → s.phase.still = true → s.stopReq = true →
    ∃ c, ctl = .waiting c ∧ s.exits c = false) ∧
  (move = .program → ctl = .accessing (.acknowledgeConfig true) →
    ∃ a, s.phase = .receiver a)

def timelyCheck (ctl : Ctl sig) (s : World δ) (move : Move) : Bool :=
  match move, ctl with
  | .machine, .waiting c => !(s.phase.still && s.stopReq && s.exits c)
  | .machine, _ => !(s.phase.still && s.stopReq)
  | .program, .accessing (.acknowledgeConfig true) =>
      match s.phase with
      | .receiver _ => true
      | _ => false
  | .program, _ => true

theorem timely_of_check (ctl : Ctl sig) (s : World δ) (move : Move)
    (h : timelyCheck ctl s move = true) : Timely ctl s move := by
  constructor
  · rintro rfl hp hs
    cases ctl with
    | returned => simp [timelyCheck, hp, hs] at h
    | accessing o => simp [timelyCheck, hp, hs] at h
    | waiting c => exact ⟨c, rfl, by simpa [timelyCheck, hp, hs] using h⟩
  · rintro rfl rfl
    cases hp : s.phase with
    | receiver a => exact ⟨a, rfl⟩
    | _ => simp [timelyCheck, hp] at h

theorem orderly_timely : Orderly (δ := δ) Timely where
  stop := fun _ _ hg => hg.1 rfl
  ack := fun _ _ hg => hg.2 rfl rfl

/-- A burst read asks for at least one byte. -/
def Call.asksSome : Call → Prop
  | .writeReg _ _ _ | .readReg _ _ => True
  | .readMultiReg _ _ _ count => 0 < count.toNat

instance : DecidablePred Call.asksSome
  | .writeReg _ _ _ | .readReg _ _ => inferInstanceAs (Decidable True)
  | .readMultiReg _ _ _ count => inferInstanceAs (Decidable (0 < count.toNat))

/-- There is a device at each of the addresses `A`.  Devices that acknowledge every
byte need only be present. -/
def Present (A : BitVec 7 → Prop) (D : BitVec 7 → Option δ) : Prop :=
  ∀ a, A a → (D a).isSome = true

theorem Present.update {A : BitVec 7 → Prop} {D : BitVec 7 → Option δ} {a : BitVec 7} {d : δ}
    (h : Present A D) : Present A (Function.update D a (some d)) := by
  intro b hb
  by_cases hab : b = a
  · rw [hab, Function.update_self]
    rfl
  · rw [Function.update_of_ne hab]
    exact h b hb

theorem settled_boot {A : BitVec 7 → Prop} {devs : BitVec 7 → Option δ} (m : Nat → Byte)
    (h : Present A devs) : Settled A (Present A) (World.boot devs m) :=
  Or.inl ⟨⟨rfl, Nat.zero_le 2, h⟩, rfl, rfl⟩

/-- A single device on the bus. -/
theorem settled_alone (a : BitVec 7) (d : δ) (m : Nat → Byte) :
    Settled (a = ·) (Present (a = ·))
      (World.boot (Function.update (fun _ => none) a (some d)) m) := by
  refine settled_boot m fun b hb => ?_
  rw [← hb, Function.update_self]
  rfl

variable [Device δ] {A : BitVec 7 → Prop} {G : Guard sig (World δ)} {s : World δ}

theorem serves_present : Serves (δ := δ) A (Present A) :=
  ⟨fun _ a hD ha => Option.isSome_iff_exists.mp (hD a ha),
    fun _ _ _ _ hD _ _ => hD.update, fun _ _ _ hD _ _ => hD.update⟩

theorem takes_present (hput : ∀ b (d : δ), (Device.put b d).isSome = true) {a : BitVec 7}
    (ha : A a) : Takes (δ := δ) a (Present A) (Present A) := by
  intro D b hD
  obtain ⟨d, hd⟩ := Option.isSome_iff_exists.mp (hD a ha)
  obtain ⟨d', hd'⟩ := Option.isSome_iff_exists.mp (hput b d)
  exact ⟨d, d', hd, hd', hD.update⟩

theorem canExit_call (hput : ∀ b (d : δ), (Device.put b d).isSome = true) (hG : Orderly G)
    {c : Call} (ha : A (c.device.setWidth 7)) (hc : c.asksSome)
    (hs : Settled A (Present A) s) :
    wp (machine δ) G (machine δ).CanExit
      (fun _ t => Settled A (Present A) t) c.prog s := by
  have hR := serves_present (δ := δ) (A := A)
  cases c with
  | writeReg device register data =>
      refine wp_seq (canExit_i2cWriteReg hR ha (takes_present hput ha)
        (takes_present hput ha) hs) fun _ _ h => h
  | readReg device register =>
      refine wp_seq (canExit_i2cReadReg hG hR hR ha (takes_present hput ha) hs) fun _ _ h => h
  | readMultiReg device register buf count =>
      refine wp_seq (canExit_i2cReadMultiReg hG hR hR ha (takes_present hput ha) hc hs)
        fun _ _ h => h

theorem canExit_runCalls (hput : ∀ b (d : δ), (Device.put b d).isSome = true)
    (hG : Orderly G) {cs : List Call} (ha : ∀ c ∈ cs, A (c.device.setWidth 7))
    (hc : ∀ c ∈ cs, c.asksSome)
    (hs : Settled A (Present A) s) :
    wp (machine δ) G (machine δ).CanExit
      (fun _ t => Settled A (Present A) t) (runCalls cs) s := by
  induction cs generalizing s with
  | nil => exact hs
  | cons c cs ih =>
      refine wp_seq (canExit_call hput hG (ha c (List.mem_cons_self ..))
        (hc c (List.mem_cons_self ..)) hs) fun r s₁ h₁ => ?_
      refine wp_seq (ih (fun c' hc' => ha c' (List.mem_cons_of_mem c hc'))
        (fun c' hc' => hc c' (List.mem_cons_of_mem c hc')) h₁) fun rs s₂ h₂ => ?_
      exact h₂

/-- No timely run of any sequence of calls gets stuck. -/
theorem runCalls_not_stuck (hput : ∀ b (d : δ), (Device.put b d).isSome = true)
    {cs : List Call} {devs : BitVec 7 → Option δ} {m : Nat → Byte} {ms : List Move}
    {c : Config sig (World δ) (List (Option Byte))}
    (hdevs : ∀ call ∈ cs, (devs (call.device.setWidth 7)).isSome = true)
    (hcount : ∀ call ∈ cs, call.asksSome)
    (hkeep : (machine δ).Keeps Timely ms ⟨runCalls cs, World.boot devs m, []⟩)
    (hrun : (machine δ).run ms ⟨runCalls cs, World.boot devs m, []⟩ = some c) :
    ¬ (machine δ).Stuck c := by
  have hboot := settled_boot (A := fun a => (devs a).isSome = true) m fun _ ha => ha
  exact not_stuck_of_wp (canExit_runCalls hput orderly_timely hdevs hcount hboot) hkeep hrun

theorem runCalls_not_stuck_counting :
    ∃ c, (machine RegisterFile).run timelyMoves
        ⟨runCalls [.readMultiReg 0x53#8 0x32#8 0 2#8], countingBus, []⟩ = some c ∧
      ¬ (machine RegisterFile).Stuck c := by
  have hrun : ((machine RegisterFile).run timelyMoves
      ⟨runCalls [.readMultiReg 0x53#8 0x32#8 0 2#8], countingBus, []⟩).isSome = true := by
    decide +kernel
  obtain ⟨c, hc⟩ := Option.isSome_iff_exists.mp hrun
  have hkeep : (machine RegisterFile).Keeps Timely timelyMoves
      ⟨runCalls [.readMultiReg 0x53#8 0x32#8 0 2#8], countingBus, []⟩ :=
    (machine RegisterFile).keeps_of_check timely_of_check (by decide +kernel)
  exact ⟨c, hc, runCalls_not_stuck RegisterFile.put_isSome (by decide) (by decide) hkeep hc⟩

/-- The byte comes in and STOP goes out before the driver polls for it. -/
def lateMoves : List Move :=
  pointerMoves ++ [.program, .program, .machine, .machine]

theorem runCalls_stuck :
    ∃ c, (machine RegisterFile).run lateMoves
        ⟨runCalls [.readReg 0x53#8 0x00#8], countingBus, []⟩ = some c ∧
      (machine RegisterFile).Stuck c := by
  have hrun : ((machine RegisterFile).run lateMoves
      ⟨runCalls [.readReg 0x53#8 0x00#8], countingBus, []⟩).map (fun c =>
        (c.prog.awaiting, c.state.hwStep.isNone, c.state.exits receivedWait)) =
      some (some receivedWait, true, false) := by
    decide +kernel
  obtain ⟨c, hc, hobs⟩ := Option.map_eq_some_iff.mp hrun
  simp only [Prod.mk.injEq] at hobs
  exact ⟨c, hc, (machine RegisterFile).stuck_of_halted hobs.1
    (Option.isNone_iff_eq_none.mp hobs.2.1) hobs.2.2⟩

end ImuFirmware
