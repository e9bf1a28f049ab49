/-
A device as a file of 256 registers with an auto-incrementing pointer.

The first byte of a write transfer sets the pointer and each later one is stored
there.  Each byte of a read transfer comes from there.  The pointer moves on after
each data byte and is kept across STOP.
-/
import ImuFirmware.I2C.Receive

namespace ImuFirmware

/-- `fresh` says that the next byte written is the pointer. -/
structure RegisterFile where
  regs : Byte → Byte
  pointer : Byte
  fresh : Bool

instance : Device RegisterFile where
  select reading d := { d with fresh := !reading }
  put b d :=
    if d.fresh then some { d with pointer := b, fresh := false }
    else some { d with
      regs := Function.update d.regs d.pointer b
      pointer := d.pointer + 1#8 }
  get d := (d.regs d.pointer, { d with pointer := d.pointer + 1#8 })

namespace RegisterFile

theorem put_isSome (b : Byte) (d : RegisterFile) : (Device.put b d).isSome = true := by
  simp only [Device.put]
  split <;> rfl

theorem advance_eq (d : RegisterFile) (n : Nat) :
    advance d n = { d with pointer := d.pointer + BitVec.ofNat 8 n } := by
  induction n with
  | zero => simp [advance]
  | succ n ih => simp [advance, ih, Device.get, BitVec.ofNat_add, BitVec.add_assoc]

theorem stream_eq (d : RegisterFile) (n : Nat) :
    stream d n = d.regs (d.pointer + BitVec.ofNat 8 n) := by
  rw [stream, advance_eq]
  rfl

theorem pointed_eq (register : Byte) (d : RegisterFile) :
    pointed register d = some ⟨d.regs, register, false⟩ := rfl

theorem written_eq (register data : Byte) (d : RegisterFile) :
    written register data d =
      some ⟨Function.update d.regs register data, register + 1#8, false⟩ := rfl

end RegisterFile

end ImuFirmware
