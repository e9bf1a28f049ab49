/-
The sensor readers of `10dof.c`.

A local array and an argument array are addresses in memory.  An `int16_t` is a
`BitVec 16` that integer promotion extends to 32 bits, and an assignment of an
`int` to one keeps the low 16 bits.  The division of `Gyro_data` by PI is floating
point and a parameter, the bits of the `float` that it stores.
-/
import Mathlib.Tactic.IntervalCases
import ImuFirmware.I2C.RegisterMap
import ImuFirmware.Sensors.Words

namespace ImuFirmware

open Polling

def adxl345 : Byte := 0x53#8

def l3g4200d : Byte := 0x69#8

def hmc5883l : Byte := 0x1E#8

/-! ## Words -/

def load16 (a : Nat) : Driver (BitVec 16) := do
  let low ← load a
  let high ← load (a + 1)
  pure (joinBytes high low)

def store16 (a : Nat) (v : BitVec 16) : Driver Unit := do
  store a (lowByte v)
  store (a + 1) (highByte v)

def store32 (a : Nat) (v : BitVec 32) : Driver Unit := do
  store16 a (v.setWidth 16)
  store16 (a + 2) ((v >>> 16).setWidth 16)

/-! ## Converting two bytes -/

/-- An `int16_t` in an expression. -/
def promote (v : BitVec 16) : BitVec 32 := v.signExtend 32

/-- An `int` assigned to an `int16_t`. -/
def narrow (v : BitVec 32) : BitVec 16 := v.setWidth 16

def concatenate (msb lsb : Byte) : BitVec 16 :=
  narrow (((msb.setWidth 32 <<< 8) &&& 0xFF00#32) ||| (lsb.setWidth 32 &&& 0xFF#32))

/-- What `convert_2_sgn` computes from the two bytes. -/
def signedValue (msb lsb : Byte) : BitVec 16 :=
  let concatenated := concatenate msb lsb
  if (0x8000#32).sle (promote concatenated) then
    let inverted := narrow (promote concatenated ^^^ 0xFFFF#32)
    let incremented := narrow (promote inverted + 1#32)
    narrow (-promote incremented)
  else concatenated

def convert2Sgn (msb lsb data : Nat) : Driver Unit := do
  let high ← load msb
  let low ← load lsb
  store16 data (signedValue high low)

/-- `for (i = 0; i < 8; i += 2) { convert_2_sgn(..); j++; }` from `i` and `j` on, the
three arguments as functions of the counters. -/
def convertLoop (msb lsb data : Nat → Nat) (i j : Nat) : Driver Unit :=
  if i < 8 then do
    convert2Sgn (msb i) (lsb i) (data j)
    convertLoop msb lsb data (i + 2) (j + 1)
  else pure ()
termination_by 8 - i

/-! ## The readers -/

def adxl345Data (rawData buf : Nat) : Driver Unit := do
  i2cReadMultiReg adxl345 0x32#8 rawData 6#8
  convertLoop (fun i => rawData + (i + 1)) (fun i => rawData + i) (fun j => buf + 2 * j) 0 0

/-- `Gyro_data` up to its division loop, with `gyro_data` at `gyro`. -/
def gyroDecode (rawData gyro : Nat) : Driver Unit := do
  i2cReadMultiReg l3g4200d 0xA8#8 rawData 6#8
  convertLoop (fun i => rawData + (i + 1)) (fun i => rawData + i) (fun j => gyro + 2 * j) 0 0

/-- `for (i = 0; i < 3; i++) { angle_rate[i] = gyro_data[i] / PI; }` from `i` on. -/
def divideLoop (divide : BitVec 16 → BitVec 32) (gyro angleRate i : Nat) : Driver Unit :=
  if i < 3 then do
    let v ← load16 (gyro + 2 * i)
    store32 (angleRate + 4 * i) (divide v)
    divideLoop divide gyro angleRate (i + 1)
  else pure ()
termination_by 3 - i

def gyroData (divide : BitVec 16 → BitVec 32) (rawData gyro angleRate : Nat) :
    Driver Unit := do
  gyroDecode rawData gyro
  divideLoop divide gyro angleRate 0

def compassData (rawData buf : Nat) : Driver Unit := do
  i2cReadMultiReg hmc5883l 0x03#8 rawData 6#8
  convertLoop (fun i => rawData + i) (fun i => rawData + (i + 1)) (fun j => buf + 2 * j) 0 0

/-! ## What is converted -/

theorem concatenate_eq (msb lsb : Byte) : concatenate msb lsb = joinBytes msb lsb := by
  unfold concatenate narrow joinBytes
  ext i hi
  rw [BitVec.getElem_append]
  simp only [BitVec.getElem_setWidth, BitVec.getLsbD_or, BitVec.getLsbD_and,
    BitVec.getLsbD_shiftLeft, BitVec.getLsbD_setWidth]
  interval_cases i <;> simp

theorem toInt_promote (v : BitVec 16) : (promote v).toInt = v.toInt :=
  BitVec.toInt_signExtend_of_le (by decide)

/-- No `int16_t` is 0x8000 or more, so the branch for negative values is dead. -/
theorem not_sle_promote (v : BitVec 16) : (0x8000#32).sle (promote v) = false := by
  have hlt := BitVec.toInt_lt (x := v)
  have hbound : (0x8000#32).toInt = 32768 := by decide
  rw [BitVec.sle, toInt_promote, hbound, decide_eq_false_iff_not]
  omega

theorem signedValue_eq (msb lsb : Byte) : signedValue msb lsb = joinBytes msb lsb := by
  rw [signedValue, not_sle_promote, if_neg Bool.false_ne_true, concatenate_eq]

/-- The loop goes round four times. -/
theorem convertLoop_eq (msb lsb data : Nat → Nat) :
    convertLoop msb lsb data 0 0 = (do
      convert2Sgn (msb 0) (lsb 0) (data 0)
      convert2Sgn (msb 2) (lsb 2) (data 1)
      convert2Sgn (msb 4) (lsb 4) (data 2)
      convert2Sgn (msb 6) (lsb 6) (data 3)) := by
  have hdone : convertLoop msb lsb data 8 4 = pure () := by
    rw [convertLoop, if_neg (by decide)]
  rw [convertLoop, if_pos (by decide), convertLoop, if_pos (by decide), convertLoop,
    if_pos (by decide), convertLoop, if_pos (by decide), hdone]
  rfl

theorem divideLoop_eq (divide : BitVec 16 → BitVec 32) (gyro angleRate : Nat) :
    divideLoop divide gyro angleRate 0 = (do
      let x ← load16 (gyro + 2 * 0)
      store32 (angleRate + 4 * 0) (divide x)
      let y ← load16 (gyro + 2 * 1)
      store32 (angleRate + 4 * 1) (divide y)
      let z ← load16 (gyro + 2 * 2)
      store32 (angleRate + 4 * 2) (divide z)) := by
  have hdone : divideLoop divide gyro angleRate 3 = pure () := by
    rw [divideLoop, if_neg (by decide)]
  rw [divideLoop, if_pos (by decide), divideLoop, if_pos (by decide), divideLoop,
    if_pos (by decide), hdone]
  rfl

end ImuFirmware
