/-
The memory the sensor readers touch.

Each of the three loops runs its counter to 8 over six bytes.  The fourth round
reads two bytes past `raw_data` and writes a fourth element past the three of the
output, in every run.
-/
import ImuFirmware.I2C.Requests
import ImuFirmware.Sensors.Readers

namespace ImuFirmware

open Polling

/-- The addresses of an array of `count` elements of `size` bytes. -/
def elements (base size count a : Nat) : Prop := base ≤ a ∧ a < base + size * count

structure Footprint (reads writes : Nat → Prop) (log : List Op) : Prop where
  loads : ∀ a, Op.load a ∈ log → reads a
  stores : ∀ a b, Op.store a b ∈ log → writes a

/-- The accesses `ADXL345_data` and `Compass_data` may make: reads of `raw_data[0..5]`,
writes of these and of `buf[0..2]`. -/
def ReaderFootprint (rawData buf : Nat) (log : List Op) : Prop :=
  Footprint (elements rawData 1 6) (fun a => elements rawData 1 6 a ∨ elements buf 2 3 a) log

/-- The accesses `Gyro_data` may make: the same with `gyro_data`, and then the 18 of its
division loop, reads of `gyro_data[0..2]` and writes of `angle_rate[0..2]`. -/
def GyroFootprint (rawData gyro angleRate : Nat) (log : List Op) : Prop :=
  ∃ first last, log = first ++ last ∧ last.length = 18 ∧ ReaderFootprint rawData gyro first ∧
    Footprint (elements gyro 2 3) (elements angleRate 4 3) last

/-- A byte past the end of `raw_data` is read. -/
def ReadsPast (rawData : Nat) (log : List Op) : Prop := Op.load (rawData + 6) ∈ log

theorem not_readerFootprint {rawData buf : Nat} {log : List Op} (h : ReadsPast rawData log) :
    ¬ ReaderFootprint rawData buf log := by
  intro hfoot
  have hread := hfoot.loads _ h
  unfold elements at hread
  omega

theorem not_gyroFootprint {rawData gyro angleRate : Nat} {log first last : List Op}
    (hlog : log = first ++ last) (hlen : last.length = 18) (h : ReadsPast rawData first) :
    ¬ GyroFootprint rawData gyro angleRate log := by
  intro hcase
  obtain ⟨first', last', hlog', hlen', hfoot, -⟩ := hcase
  have hsplit := List.append_inj' (hlog.symm.trans hlog') (hlen.trans hlen'.symm)
  rw [hsplit.1] at h
  exact not_readerFootprint h hfoot

/-! ## What the loops do -/

/-- The fourth round of the loop. -/
theorem emits_convertLoop (msb lsb data : Nat → Nat) (l : List Op) :
    Emits (fun log : List Op => Op.load (msb 6) ∈ log ∧ Op.load (lsb 6) ∈ log ∧
      (∃ b, Op.store (data 3) b ∈ log) ∧ ∃ b, Op.store (data 3 + 1) b ∈ log)
      (convertLoop msb lsb data 0 0) l := by
  rw [convertLoop_eq]
  refine emits_after fun _ l => emits_after fun _ l => emits_after fun _ l => ?_
  intro high low _ _
  refine ⟨?_, ?_, ⟨lowByte (signedValue high low), ?_⟩, ⟨highByte (signedValue high low), ?_⟩⟩ <;>
    simp

theorem emits_adxl345Data (rawData buf : Nat) :
    Emits (ReadsPast rawData) (adxl345Data rawData buf) [] :=
  emits_after fun _ l => emits_mono (fun _ h => h.2.1) (emits_convertLoop _ _ _ l)

theorem emits_compassData (rawData buf : Nat) :
    Emits (ReadsPast rawData) (compassData rawData buf) [] :=
  emits_after fun _ l => emits_mono (fun _ h => h.1) (emits_convertLoop _ _ _ l)

theorem emits_gyroData (divide : BitVec 16 → BitVec 32) (rawData gyro angleRate : Nat) :
    Emits (fun log : List Op => ∃ first last, log = first ++ last ∧ last.length = 18 ∧
      ReadsPast rawData first) (gyroData divide rawData gyro angleRate) [] := by
  have hdecode : Emits (ReadsPast rawData) (gyroDecode rawData gyro) [] :=
    emits_after fun _ l => emits_mono (fun _ h => h.2.1) (emits_convertLoop _ _ _ l)
  have hdivide : ∀ l : List Op, Emits (fun log : List Op => log.length = l.length + 18)
      (divideLoop divide gyro angleRate 0) l := by
    intro l
    rw [divideLoop_eq]
    intro _ _ _ _ _ _ _ _ _ _ _ _ _ _ _ _ _ _
    simp [Emits]
  refine emits_seq hdecode fun _ l hl => ?_
  refine emits_mono ?_ (emits_and (emits_extends _ l) (hdivide l))
  intro log hcase
  obtain ⟨⟨last, rfl⟩, hlen⟩ := hcase
  rw [List.length_append] at hlen
  exact ⟨l, last, rfl, by omega, hl⟩

variable {δ : Type} [Device δ] {A : BitVec 7 → Prop} {s : World δ}

/-! ## The readers return -/

theorem waitFree_convertLoop (msb lsb data : Nat → Nat) :
    (convertLoop msb lsb data 0 0).WaitFree := by
  rw [convertLoop_eq]
  intro _ _ _ _ _ _ _ _ _ _ _ _ _ _ _ _
  trivial

theorem waitFree_divideLoop (divide : BitVec 16 → BitVec 32) (gyro angleRate : Nat) :
    (divideLoop divide gyro angleRate 0).WaitFree := by
  rw [divideLoop_eq]
  intro _ _ _ _ _ _ _ _ _ _ _ _ _ _ _ _ _ _
  trivial

/-- A burst read of a responsive device, and what comes after it without waiting, can
be run to the end. -/
theorem readMultiReg_then_returns (hput : ∀ b (d : δ), (Device.put b d).isSome = true)
    (device register : Byte) (buf : Nat) {count : Byte} {α : Type} {rest : Driver α}
    (ha : A (device.setWidth 7)) (hcount : 0 < count.toNat)
    (hs : Settled A (Present A) s) (hrest : rest.WaitFree) :
    ∃ ms c, (machine δ).run ms
      ⟨i2cReadMultiReg device register buf count >>= fun _ => rest, s, []⟩ = some c ∧
      c.result.isSome = true := by
  have hread : wp (machine δ) (machine δ).InTurn (machine δ).CanExit
      (fun _ t => Settled A (Present A) t) (i2cReadMultiReg device register buf count) s :=
    canExit_i2cReadMultiReg orderly_inTurn serves_present serves_present ha
      (takes_present hput ha) hcount hs
  obtain ⟨ms, a, t, log, hrun, -⟩ :=
    wp_runs_out [] (wp_seq hread fun _ _ _ => wp_waitFree hrest)
  exact ⟨ms, _, hrun, rfl⟩

/-- The program can be run to its end, and whenever it is, its accesses are not
within `F`. -/
def AlwaysLeaves (F : List Op → Prop) (p : Driver Unit) (s : World δ) : Prop :=
  (∃ ms c, (machine δ).run ms ⟨p, s, []⟩ = some c ∧ c.result.isSome = true) ∧
    ∀ ms c, (machine δ).run ms ⟨p, s, []⟩ = some c → c.result.isSome = true → ¬ F c.log

/-- No returning run of any of the three readers keeps to its footprint. -/
theorem readers_leave_footprint (hput : ∀ b (d : δ), (Device.put b d).isSome = true)
    (hacc : A 0x53#7) (hgyro : A 0x69#7) (hcompass : A 0x1E#7)
    (hs : Settled A (Present A) s) (divide : BitVec 16 → BitVec 32)
    (rawData buf gyro angleRate : Nat) :
    AlwaysLeaves (ReaderFootprint rawData buf) (adxl345Data rawData buf) s ∧
      AlwaysLeaves (GyroFootprint rawData gyro angleRate)
        (gyroData divide rawData gyro angleRate) s ∧
      AlwaysLeaves (ReaderFootprint rawData buf) (compassData rawData buf) s := by
  have hcount : 0 < (6#8 : Byte).toNat := by decide
  refine ⟨⟨?_, fun ms c hrun hret => ?_⟩, ⟨?_, fun ms c hrun hret => ?_⟩,
    ⟨?_, fun ms c hrun hret => ?_⟩⟩
  · exact readMultiReg_then_returns hput adxl345 _ _ hacc hcount hs
      (waitFree_convertLoop _ _ _)
  · exact not_readerFootprint (emits_result (emits_adxl345Data rawData buf) hrun hret)
  · have hrest : (convertLoop (fun i => rawData + (i + 1)) (fun i => rawData + i)
        (fun j => gyro + 2 * j) 0 0 >>= fun _ =>
          divideLoop divide gyro angleRate 0).WaitFree :=
      Prog.waitFree_bind (waitFree_convertLoop _ _ _) fun _ => waitFree_divideLoop _ _ _
    have h := readMultiReg_then_returns hput l3g4200d 0xA8#8 rawData hgyro hcount hs hrest
    rw [← bind_assoc] at h
    exact h
  · obtain ⟨first, last, hlog, hlen, hpast⟩ :=
      emits_result (emits_gyroData divide rawData gyro angleRate) hrun hret
    exact not_gyroFootprint hlog hlen hpast
  · exact readMultiReg_then_returns hput hmc5883l _ _ hcompass hcount hs
      (waitFree_convertLoop _ _ _)
  · exact not_readerFootprint (emits_result (emits_compassData rawData buf) hrun hret)

/-! ## A run of `ADXL345_data` -/

/-- The three sensors, every memory cell holding its own address. -/
def sensorBus : World RegisterFile :=
  World.boot (fun a => if a = 0x53#7 ∨ a = 0x69#7 ∨ a = 0x1E#7 then some countingFile else none)
    fun p => BitVec.ofNat 8 p

theorem present_sensorBus :
    Present (fun a => a = 0x53#7 ∨ a = 0x69#7 ∨ a = 0x1E#7) sensorBus.devs := by
  intro a ha
  have hdev : sensorBus.devs a = some countingFile := if_pos ha
  rw [hdev]
  rfl

theorem readers_leave_footprint_sensorBus :
    AlwaysLeaves (ReaderFootprint 100 200) (adxl345Data 100 200) sensorBus ∧
      AlwaysLeaves (GyroFootprint 100 300 200) (gyroData (BitVec.setWidth 32) 100 300 200)
        sensorBus ∧
      AlwaysLeaves (ReaderFootprint 100 200) (compassData 100 200) sensorBus :=
  readers_leave_footprint RegisterFile.put_isSome (Or.inl rfl) (Or.inr (Or.inl rfl))
    (Or.inr (Or.inr rfl)) (settled_boot _ present_sensorBus) _ 100 200 300 200

/-- Six bytes read in turn, and sixteen accesses to memory after them. -/
def readSixMoves : List Move :=
  pointerMoves ++ (List.replicate 5 [.program, .machine, .program, .program, .program]).flatten ++
    [.program, .program, .machine, .program, .program, .program, .program] ++
    List.replicate 16 .program

/-- `ADXL345_data` with `raw_data` at 100 and a three-element `buf` at 200 changes the
cell after `buf`, by what it found after `raw_data`. -/
theorem adxl345Data_overrun :
    ∃ c, (machine RegisterFile).run readSixMoves ⟨adxl345Data 100 200, sensorBus, []⟩ = some c ∧
      c.result.isSome = true ∧ sensorBus.mem 206 = 206#8 ∧ c.state.mem 206 = 106#8 ∧
      ¬ ReaderFootprint 100 200 c.log := by
  have hrun : ((machine RegisterFile).run readSixMoves
      ⟨adxl345Data 100 200, sensorBus, []⟩).map (fun c =>
        (c.result.isSome, c.state.mem 206)) = some (true, 106#8) := by
    decide +kernel
  obtain ⟨c, hc, hobs⟩ := Option.map_eq_some_iff.mp hrun
  obtain ⟨hret, hmem⟩ := Prod.mk.inj hobs
  exact ⟨c, hc, hret, rfl, hmem,
    not_readerFootprint (emits_result (emits_adxl345Data 100 200) hc hret)⟩

end ImuFirmware
