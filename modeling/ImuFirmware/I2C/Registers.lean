/-
The status registers of the I2C peripheral and the vendor library's tests on them.

`I2C_CheckEvent` reads SR1 and then SR2, joins them into one word and asks that
every bit of the event be set.  `I2C_GetFlagStatus` reads one of the two registers,
the flag's top nibble saying which.  The lemmas say what the events and the flag
the driver polls come to in terms of single bits.
-/
import Mathlib.Data.Fintype.Basic

namespace ImuFirmware

abbrev Byte := BitVec 8

/-! ## Constants of `stm32f4xx_i2c.h` -/

def flagMask : BitVec 32 := 0x00FFFFFF#32

def i2cFlagBusy : BitVec 32 := 0x00020000#32

/-- EV5: BUSY, MSL and SB. -/
def i2cEventMasterModeSelect : BitVec 32 := 0x00030001#32

/-- EV6 as transmitter: BUSY, MSL, ADDR, TXE and TRA. -/
def i2cEventMasterTransmitterModeSelected : BitVec 32 := 0x00070082#32

/-- EV6 as receiver: BUSY, MSL and ADDR. -/
def i2cEventMasterReceiverModeSelected : BitVec 32 := 0x00030002#32

/-- EV7: BUSY, MSL and RXNE. -/
def i2cEventMasterByteReceived : BitVec 32 := 0x00030040#32

/-- EV8_2: TRA, BUSY, MSL, TXE and BTF. -/
def i2cEventMasterByteTransmitted : BitVec 32 := 0x00070084#32

def i2cDirectionTransmitter : Byte := 0x00#8

def i2cDirectionReceiver : Byte := 0x01#8

/-! ## The tests -/

/-- `I2C_CheckEvent`, given the values its two reads return. -/
def i2cCheckEvent (flag1 flag2 event : BitVec 32) : Bool :=
  let lastevent := (flag1 ||| (flag2 <<< 16)) &&& flagMask
  (lastevent &&& event) == event

/-- `I2C_GetFlagStatus`, given the values of SR1 and SR2. -/
def i2cGetFlagStatus (sr1 sr2 flag : BitVec 32) : Bool :=
  let i2creg := flag >>> 28
  let masked := flag &&& flagMask
  if i2creg ≠ 0#32 then (sr1 &&& masked) != 0#32
  else (sr2 &&& (masked >>> 16)) != 0#32

/-! ## The registers -/

def flagBit (n : Nat) (b : Bool) : BitVec 32 := if b then 1#32 <<< n else 0#32

def sr1Word (sb addr btf rxne txe af : Bool) : BitVec 32 :=
  flagBit 0 sb ||| flagBit 1 addr ||| flagBit 2 btf ||| flagBit 6 rxne |||
    flagBit 7 txe ||| flagBit 10 af

def sr2Word (msl busy tra : Bool) : BitVec 32 :=
  flagBit 0 msl ||| flagBit 1 busy ||| flagBit 2 tra

theorem getFlagStatus_busy (sr1 : BitVec 32) (msl busy tra : Bool) :
    i2cGetFlagStatus sr1 (sr2Word msl busy tra) i2cFlagBusy = busy := by
  have hreg : ¬ i2cFlagBusy >>> 28 ≠ 0#32 := by decide
  simp only [i2cGetFlagStatus, if_neg hreg]
  revert msl busy tra
  decide

theorem checkEvent_masterModeSelect (sb addr btf rxne txe af msl busy tra : Bool) :
    i2cCheckEvent (sr1Word sb addr btf rxne txe af) (sr2Word msl busy tra)
      i2cEventMasterModeSelect = (busy && msl && sb) := by
  revert sb addr btf rxne txe af msl busy tra
  decide +kernel

theorem checkEvent_transmitterSelected (sb addr btf rxne txe af msl busy tra : Bool) :
    i2cCheckEvent (sr1Word sb addr btf rxne txe af) (sr2Word msl busy tra)
      i2cEventMasterTransmitterModeSelected = (busy && msl && addr && txe && tra) := by
  revert sb addr btf rxne txe af msl busy tra
  decide +kernel

theorem checkEvent_receiverSelected (sb addr btf rxne txe af msl busy tra : Bool) :
    i2cCheckEvent (sr1Word sb addr btf rxne txe af) (sr2Word msl busy tra)
      i2cEventMasterReceiverModeSelected = (busy && msl && addr) := by
  revert sb addr btf rxne txe af msl busy tra
  decide +kernel

theorem checkEvent_byteReceived (sb addr btf rxne txe af msl busy tra : Bool) :
    i2cCheckEvent (sr1Word sb addr btf rxne txe af) (sr2Word msl busy tra)
      i2cEventMasterByteReceived = (busy && msl && rxne) := by
  revert sb addr btf rxne txe af msl busy tra
  decide +kernel

theorem checkEvent_byteTransmitted (sb addr btf rxne txe af msl busy tra : Bool) :
    i2cCheckEvent (sr1Word sb addr btf rxne txe af) (sr2Word msl busy tra)
      i2cEventMasterByteTransmitted = (tra && busy && msl && txe && btf) := by
  revert sb addr btf rxne txe af msl busy tra
  decide +kernel

end ImuFirmware
