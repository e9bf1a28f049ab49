/-
What a poll of each wait loop sees, and what the hardware can do in each phase.
-/
import ImuFirmware.I2C.Driver

namespace ImuFirmware

open Polling

/-- The wait loops of the driver. -/
abbrev busyWait : Wait := .whileFlag i2cFlagBusy
abbrev startWait : Wait := .untilEvent i2cEventMasterModeSelect
abbrev transmitterWait : Wait := .untilEvent i2cEventMasterTransmitterModeSelected
abbrev receiverWait : Wait := .untilEvent i2cEventMasterReceiverModeSelected
abbrev transmittedWait : Wait := .untilEvent i2cEventMasterByteTransmitted
abbrev receivedWait : Wait := .untilEvent i2cEventMasterByteReceived

namespace World

variable {δ : Type}

theorem exits_busyWait (s : World δ) : s.exits busyWait = true ↔ s.phase = .idle := by
  simp [exits, sr2, getFlagStatus_busy, busy]

theorem exits_startWait (s : World δ) : s.exits startWait = true ↔ s.phase = .started := by
  rw [exits, sr1, sr2, checkEvent_masterModeSelect]
  cases h : s.phase <;> simp [busy, sb, h]

theorem exits_transmitterWait (s : World δ) :
    s.exits transmitterWait = true ↔
      s.addrFlag = true ∧ ∃ a, s.phase = .transmitter a .empty ∨
        s.phase = .transmitter a .finished := by
  rw [exits, sr1, sr2, checkEvent_transmitterSelected]
  cases h : s.phase with
  | transmitter a t => cases t <;> simp [busy, txe, tra, h]
  | _ => simp [tra, h]

theorem exits_receiverWait (s : World δ) :
    s.exits receiverWait = true ↔ s.addrFlag = true ∧ s.phase ≠ .idle := by
  rw [exits, sr1, sr2, checkEvent_receiverSelected]
  cases h : s.phase <;> simp [busy, h]

theorem exits_transmittedWait (s : World δ) :
    s.exits transmittedWait = true ↔ ∃ a, s.phase = .transmitter a .finished := by
  rw [exits, sr1, sr2, checkEvent_byteTransmitted]
  cases h : s.phase with
  | transmitter a t => cases t <;> simp [busy, txe, tra, btf, h]
  | _ => simp [tra, h]

theorem exits_receivedWait (s : World δ) :
    s.exits receivedWait = true ↔ s.rx ≠ [] ∧ s.phase ≠ .idle := by
  rw [exits, sr1, sr2, checkEvent_byteReceived]
  cases h : s.phase <;> simp [busy, rxne, h]

theorem target_addressByte (device direction : Byte) :
    target (addressByte (device <<< 1) direction) = device.setWidth 7 := by
  unfold addressByte target
  split
  all_goals
    clear * -
    revert device
    decide +kernel

theorem addressByte_transmitter (b : Byte) :
    (addressByte b i2cDirectionTransmitter).getLsbD 0 = false := by
  simp [addressByte]

theorem addressByte_receiver (b : Byte) :
    (addressByte b i2cDirectionReceiver).getLsbD 0 = true := by
  simp [addressByte, i2cDirectionReceiver, i2cDirectionTransmitter]

/-- A write to the data register starts something or is lost. -/
theorem writeDr_phase (b : Byte) (s : World δ) : ∃ p, s.writeDr b = { s with phase := p } := by
  unfold writeDr
  split
  · exact ⟨_, rfl⟩
  · exact ⟨_, rfl⟩
  · exact ⟨s.phase, rfl⟩

theorem writeDr_idle {b : Byte} {s : World δ} (h : s.phase = .idle) : s.writeDr b = s := by
  simp only [writeDr, h]

theorem writeDr_started {b : Byte} {s : World δ} (h : s.phase = .started) :
    s.writeDr b = { s with phase := .address b } := by
  simp only [writeDr, h]

theorem writeDr_transmitter {a : BitVec 7} {x : Shift} {b : Byte} {s : World δ}
    (h : s.phase = .transmitter a x) :
    s.writeDr b = { s with phase := .transmitter a (.shifting b) } := by
  simp only [writeDr, h]

variable [Device δ] {s t : World δ}

theorem hwStep_idle (h : s.phase = .idle) (hs : s.startReq = false) : s.hwStep = none := by
  simp [hwStep, h, hs]

theorem hwStep_idle_ne (h : s.phase = .idle) (hs : s.startReq = false) :
    s.hwStep ≠ some t := by
  rw [hwStep_idle h hs]
  exact nofun

theorem hwStep_startReq (h : s.phase = .idle) (hs : s.startReq = true) :
    s.hwStep = some { s with phase := .started, startReq := false } := by
  simp [hwStep, h, hs]

theorem hwStep_still (h : s.phase.still = true) :
    s.hwStep = if s.stopReq then some s.stopped else none := by
  unfold hwStep
  cases hp : s.phase with
  | transmitter a t => cases t <;> simp_all [Phase.still]
  | _ => simp_all [Phase.still]

theorem hwStep_absent {b : Byte} (h : s.phase = .address b) (hd : s.devs (target b) = none) :
    s.hwStep = some { s with phase := .refused, af := true } := by
  simp [hwStep, h, hd]

theorem hwStep_present {b : Byte} {d : δ} (h : s.phase = .address b)
    (hd : s.devs (target b) = some d) :
    s.hwStep = some { s with
      phase := if b.getLsbD 0 then .receiver (target b) else .transmitter (target b) .empty
      addrFlag := true
      devs := Function.update s.devs (target b) (some (Device.select (b.getLsbD 0) d)) } := by
  simp only [hwStep, h, hd]

theorem hwStep_shifting_refused {a : BitVec 7} {b : Byte}
    (h : s.phase = .transmitter a (.shifting b)) (hd : (s.devs a).bind (Device.put b) = none) :
    s.hwStep = some { s with phase := .refused, af := true } := by
  simp only [hwStep, h, hd]

theorem hwStep_shifting {a : BitVec 7} {b : Byte} {d : δ}
    (h : s.phase = .transmitter a (.shifting b))
    (hd : (s.devs a).bind (Device.put b) = some d) :
    s.hwStep = some { s with
      phase := .transmitter a .finished
      devs := Function.update s.devs a (some d) } := by
  simp only [hwStep, h, hd]

/-- In a still phase the hardware can only serve a requested STOP. -/
theorem hwStep_still_inv (h : s.phase.still = true) (ht : s.hwStep = some t) :
    s.stopReq = true ∧ t = s.stopped := by
  rw [hwStep_still h] at ht
  split at ht
  case isTrue hs => exact ⟨hs, (Option.some.inj ht).symm⟩
  case isFalse => exact nomatch ht

theorem hwStep_receiver {a : BitVec 7} {d : δ} (h : s.phase = .receiver a)
    (hd : s.devs a = some d) (hroom : s.rx.length < 2) :
    s.hwStep = some { s with
      phase := if s.ack && !s.stopReq then .receiver a else .ended
      rx := s.rx ++ [(Device.get d).1]
      devs := Function.update s.devs a (some (Device.get d).2)
      clocked := s.clocked ++ [((Device.get d).1, s.ack)] } := by
  simp only [hwStep, h, hd, hroom, if_true]

theorem hwStep_receiver_inv {a : BitVec 7} {d : δ} (h : s.phase = .receiver a)
    (hd : s.devs a = some d) (ht : s.hwStep = some t) :
    s.rx.length < 2 ∧ t = { s with
      phase := if s.ack && !s.stopReq then .receiver a else .ended
      rx := s.rx ++ [(Device.get d).1]
      devs := Function.update s.devs a (some (Device.get d).2)
      clocked := s.clocked ++ [((Device.get d).1, s.ack)] } := by
  by_cases hroom : s.rx.length < 2
  · rw [hwStep_receiver h hd hroom] at ht
    exact ⟨hroom, (Option.some.inj ht).symm⟩
  · simp [hwStep, h, hd, hroom] at ht

/-- ACK is the driver's alone. -/
theorem hwStep_ack (ht : s.hwStep = some t) : t.ack = s.ack := by
  unfold hwStep at ht
  repeat' split at ht
  all_goals
    first
    | obtain rfl := Option.some.inj ht
      rfl
    | exact nomatch ht

/-- So is memory. -/
theorem hwStep_mem (ht : s.hwStep = some t) : t.mem = s.mem := by
  unfold hwStep at ht
  repeat' split at ht
  all_goals
    first
    | obtain rfl := Option.some.inj ht
      rfl
    | exact nomatch ht

/-- Only an address that is acknowledged touches ADDR. -/
theorem hwStep_addrFlag (h : ∀ b, s.phase ≠ .address b) (ht : s.hwStep = some t) :
    t.addrFlag = s.addrFlag := by
  unfold hwStep at ht
  repeat' split at ht
  all_goals
    first
    | exact absurd ‹_› (h _)
    | obtain rfl := Option.some.inj ht
      rfl
    | exact nomatch ht

theorem hwStep_clocked (ht : s.hwStep = some t) : s.clocked <+: t.clocked := by
  unfold hwStep at ht
  repeat' split at ht
  all_goals
    first
    | obtain rfl := Option.some.inj ht
      first
      | exact List.prefix_refl _
      | exact List.prefix_append _ _
    | exact nomatch ht

theorem hwStep_receiver_clocked {a : BitVec 7} (h : s.phase = .receiver a)
    (ht : s.hwStep = some t) : ∃ b, t.clocked = s.clocked ++ [(b, s.ack)] := by
  cases hd : s.devs a with
  | none => simp [hwStep, h, hd] at ht
  | some d =>
      obtain ⟨-, rfl⟩ := hwStep_receiver_inv h hd ht
      exact ⟨(Device.get d).1, rfl⟩

end World

end ImuFirmware
