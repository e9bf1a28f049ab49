/-
The register-level driver, `I2C.c`.

Each call of the vendor library is the one access to CR1 or DR that its body
makes.  `for (i = 0; i < count; i++)` is a recursion on the index.
-/
import ImuFirmware.I2C.Peripheral

namespace ImuFirmware

open Polling

/-! ## The vendor library -/

def i2cGenerateStart : Driver Unit := Prog.op (S := sig) .generateStart

def i2cGenerateStop : Driver Unit := Prog.op (S := sig) .generateStop

def i2cAcknowledgeConfig (enable : Bool) : Driver Unit :=
  Prog.op (S := sig) (.acknowledgeConfig enable)

def i2cSendData (data : Byte) : Driver Unit := Prog.op (S := sig) (.writeDr data)

def i2cReceiveData : Driver Byte := Prog.op (S := sig) .readDr

/-- The address byte: bit 0 set for reading and reset for writing. -/
def addressByte (address direction : Byte) : Byte :=
  if direction ≠ i2cDirectionTransmitter then address ||| 0x01#8
  else address &&& ~~~0x01#8

def i2cSend7bitAddress (address direction : Byte) : Driver Unit :=
  Prog.op (S := sig) (.writeDr (addressByte address direction))

def whileFlag (flag : BitVec 32) : Driver Unit := Prog.await (.whileFlag flag)

def untilEvent (event : BitVec 32) : Driver Unit := Prog.await (.untilEvent event)

/-- `*a` for a byte pointer. -/
def load (a : Nat) : Driver Byte := Prog.op (S := sig) (.load a)

/-- `*a = b` for a byte pointer. -/
def store (a : Nat) (b : Byte) : Driver Unit := Prog.op (S := sig) (.store a b)

/-! ## The basic functions -/

def i2cStart (address direction : Byte) : Driver Unit := do
  whileFlag i2cFlagBusy
  i2cGenerateStart
  untilEvent i2cEventMasterModeSelect
  i2cSend7bitAddress address direction
  if direction = i2cDirectionTransmitter then
    untilEvent i2cEventMasterTransmitterModeSelected
  else if direction = i2cDirectionReceiver then
    untilEvent i2cEventMasterReceiverModeSelected
  else pure ()

def i2cWrite (data : Byte) : Driver Unit := do
  i2cSendData data
  untilEvent i2cEventMasterByteTransmitted

def i2cReadAck : Driver Byte := do
  i2cAcknowledgeConfig true
  untilEvent i2cEventMasterByteReceived
  i2cReceiveData

def i2cReadNack : Driver Byte := do
  i2cAcknowledgeConfig false
  i2cGenerateStop
  untilEvent i2cEventMasterByteReceived
  i2cReceiveData

def i2cStop : Driver Unit := i2cGenerateStop

/-! ## Register access -/

def i2cWriteReg (device register data : Byte) : Driver Unit := do
  i2cStart (device <<< 1) i2cDirectionTransmitter
  i2cWrite register
  i2cWrite data
  i2cStop

def i2cReadReg (device register : Byte) : Driver Byte := do
  i2cStart (device <<< 1) i2cDirectionTransmitter
  i2cWrite register
  i2cStop
  i2cStart (device <<< 1) i2cDirectionReceiver
  let data ← i2cReadNack
  i2cStop
  pure data

/-- The loop of `I2C_Read_Multi_Reg` from index `i` on.  `count - 1` is an `int`. -/
def readMultiLoop (buf count i : Nat) : Driver Unit :=
  if i < count then do
    if (i : Int) < (count : Int) - 1 then do
      let b ← i2cReadAck
      store (buf + i) b
    else do
      let b ← i2cReadNack
      store (buf + i) b
      i2cStop
    readMultiLoop buf count (i + 1)
  else pure ()
termination_by count - i

def i2cReadMultiReg (device register : Byte) (buf : Nat) (count : Byte) : Driver Unit := do
  i2cStart (device <<< 1) i2cDirectionTransmitter
  i2cWrite register
  i2cStop
  i2cStart (device <<< 1) i2cDirectionReceiver
  readMultiLoop buf count.toNat 0

/-! ## Sequences of calls -/

/-- A call of one of the three register functions. -/
inductive Call where
  | writeReg (device register data : Byte)
  | readReg (device register : Byte)
  | readMultiReg (device register : Byte) (buf : Nat) (count : Byte)
  deriving DecidableEq, Repr

def Call.device : Call → Byte
  | .writeReg device _ _ | .readReg device _ | .readMultiReg device _ _ _ => device

/-- The call with the value it returns, if it returns one. -/
def Call.prog : Call → Driver (Option Byte)
  | .writeReg device register data => do
      i2cWriteReg device register data
      pure none
  | .readReg device register => do
      let data ← i2cReadReg device register
      pure (some data)
  | .readMultiReg device register buf count => do
      i2cReadMultiReg device register buf count
      pure none

def runCalls : List Call → Driver (List (Option Byte))
  | [] => pure []
  | c :: cs => do
      let r ← c.prog
      let rs ← runCalls cs
      pure (r :: rs)

end ImuFirmware
