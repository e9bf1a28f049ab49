/-
The I2C peripheral, the bus under it and the memory of the core.

`Phase` is where the transfer in progress stands, as the peripheral in master mode
sees it.  Of the hardware this takes what the driver relies on.  A byte or an
address that is not acknowledged sets AF and leaves the transfer where it is.  A
receiver completes the next byte whenever the data register and the shift register
behind it have room, acknowledges it by the ACK bit of that moment, and receives no
more after a byte that was not acknowledged or that completed with a STOP
requested.  A STOP that was requested is put on the bus after the current byte and
frees the bus; requested on a free bus, it stays pending.  What happens next is
always determined, and only when it happens is not.
-/
import Mathlib.Logic.Function.Basic
import ImuFirmware.Polling.Wp
import ImuFirmware.I2C.Registers

namespace ImuFirmware

open Polling

/-- A device on the bus.  `select` tells it that it was addressed, `true` for
reading.  `put` is the byte after that, and is `none` where the device refuses to
acknowledge it.  `get` is the next byte it sends. -/
class Device (δ : Type) where
  select : Bool → δ → δ
  put : Byte → δ → Option δ
  get : δ → Byte × δ

/-- The transmit side: nothing written yet, a byte in the shift register, or the
last byte acknowledged. -/
inductive Shift where
  | empty
  | shifting (b : Byte)
  | finished
  deriving DecidableEq, Repr

inductive Phase where
  | idle
  | started
  | address (b : Byte)
  | refused
  | transmitter (a : BitVec 7) (t : Shift)
  | receiver (a : BitVec 7)
  | ended
  deriving DecidableEq, Repr

/-- The phases in which a STOP is all that can happen. -/
def Phase.still : Phase → Bool
  | .started | .refused | .transmitter _ .empty | .transmitter _ .finished | .ended => true
  | .idle | .address _ | .transmitter _ (.shifting _) | .receiver _ => false

/-- The state under the driver.  `startReq`, `stopReq` and `ack` are the START,
STOP and ACK bits of CR1, `addrFlag` and `af` flags of SR1, `rx` the unread bytes
with the oldest first.  `clocked` records every byte a device clocked out and
whether it was acknowledged. -/
structure World (δ : Type) where
  phase : Phase
  startReq : Bool
  stopReq : Bool
  ack : Bool
  addrFlag : Bool
  af : Bool
  rx : List Byte
  devs : BitVec 7 → Option δ
  clocked : List (Byte × Bool)
  mem : Nat → Byte

/-- The state `init_I2C1` leaves: the bus free and acknowledgement disabled. -/
def World.boot {δ : Type} (devs : BitVec 7 → Option δ) (mem : Nat → Byte) : World δ where
  phase := .idle
  startReq := false
  stopReq := false
  ack := false
  addrFlag := false
  af := false
  rx := []
  devs := devs
  clocked := []
  mem := mem

/-! ## What the driver reads -/

namespace World

variable {δ : Type}

/-- BUSY and MSL: a transfer of ours is on the bus. -/
def busy (s : World δ) : Bool := decide (s.phase ≠ .idle)

def sb (s : World δ) : Bool := decide (s.phase = .started)

def tra (s : World δ) : Bool :=
  match s.phase with
  | .transmitter _ _ => true
  | _ => false

def txe (s : World δ) : Bool :=
  match s.phase with
  | .transmitter _ .empty | .transmitter _ .finished => true
  | _ => false

def btf (s : World δ) : Bool :=
  match s.phase with
  | .transmitter _ .finished => true
  | .receiver _ | .ended => s.rx.length == 2
  | _ => false

def rxne (s : World δ) : Bool := !s.rx.isEmpty

def sr1 (s : World δ) : BitVec 32 := sr1Word s.sb s.addrFlag s.btf s.rxne s.txe s.af

def sr2 (s : World δ) : BitVec 32 := sr2Word s.busy s.busy s.tra

/-! ## What the hardware does -/

/-- The STOP condition is on the bus: the request is served and the bus free. -/
def stopped (s : World δ) : World δ := { s with phase := .idle, stopReq := false }

/-- The seven address bits of the first byte of a transfer. -/
def target (b : Byte) : BitVec 7 := (b >>> 1).setWidth 7

/-- The next thing the hardware does. -/
def hwStep [Device δ] (s : World δ) : Option (World δ) :=
  match s.phase with
  | .idle =>
      if s.startReq then some { s with phase := .started, startReq := false } else none
  | .address b =>
      match s.devs (target b) with
      | none => some { s with phase := .refused, af := true }
      | some d =>
          some { s with
            phase := if b.getLsbD 0 then .receiver (target b)
              else .transmitter (target b) .empty
            addrFlag := true
            devs := Function.update s.devs (target b)
              (some (Device.select (b.getLsbD 0) d)) }
  | .transmitter a (.shifting b) =>
      match (s.devs a).bind (Device.put b) with
      | none => some { s with phase := .refused, af := true }
      | some d =>
          some { s with
            phase := .transmitter a .finished
            devs := Function.update s.devs a (some d) }
  | .receiver a =>
      match s.devs a with
      | none => none
      | some d =>
          if s.rx.length < 2 then
            some { s with
              phase := if s.ack && !s.stopReq then .receiver a else .ended
              rx := s.rx ++ [(Device.get d).1]
              devs := Function.update s.devs a (some (Device.get d).2)
              clocked := s.clocked ++ [((Device.get d).1, s.ack)] }
          else none
  | .started | .refused | .transmitter _ .empty | .transmitter _ .finished | .ended =>
      if s.stopReq then some s.stopped else none

/-- A write to the data register: the address after a START, a data byte to an
addressed device, and lost otherwise. -/
def writeDr (b : Byte) (s : World δ) : World δ :=
  match s.phase with
  | .started => { s with phase := .address b }
  | .transmitter a _ => { s with phase := .transmitter a (.shifting b) }
  | _ => s

end World

/-! ## The machine under the driver -/

/-- The accesses of the driver and of the code above it: the CR1 and DR accesses of
the vendor library, and single bytes of memory. -/
inductive Op where
  | generateStart
  | generateStop
  | acknowledgeConfig (enable : Bool)
  | writeDr (b : Byte)
  | readDr
  | load (a : Nat)
  | store (a : Nat) (b : Byte)
  deriving DecidableEq, Repr

abbrev Op.Ret : Op → Type
  | .readDr | .load _ => Byte
  | _ => Unit

/-- The wait loops: `while (I2C_GetFlagStatus(I2Cx, flag));` and
`while (!I2C_CheckEvent(I2Cx, event));`. -/
inductive Wait where
  | whileFlag (flag : BitVec 32)
  | untilEvent (event : BitVec 32)
  deriving DecidableEq, Repr

abbrev sig : Sig where
  Op := Op
  Ret := Op.Ret
  Cond := Wait

instance (o : Op) : Nonempty (sig.Ret o) := by
  cases o with
  | readDr => exact ⟨0#8⟩
  | load a => exact ⟨0#8⟩
  | _ => exact ⟨()⟩

abbrev Driver := Prog sig

namespace World

variable {δ : Type}

def access (s : World δ) : (o : Op) → o.Ret × World δ
  | .generateStart => ((), { s with startReq := true })
  | .generateStop => ((), { s with stopReq := true })
  | .acknowledgeConfig enable => ((), { s with ack := enable })
  | .writeDr b => ((), s.writeDr b)
  | .readDr => (s.rx.headD 0#8, { s with rx := s.rx.tail })
  | .load a => (s.mem a, s)
  | .store a b => ((), { s with mem := Function.update s.mem a b })

def exits (s : World δ) : Wait → Bool
  | .whileFlag flag => !i2cGetFlagStatus s.sr1 s.sr2 flag
  | .untilEvent event => i2cCheckEvent s.sr1 s.sr2 event

/-- Reading SR1 and then SR2 clears ADDR; `I2C_GetFlagStatus` reads one of them. -/
def poll (s : World δ) : Wait → World δ
  | .whileFlag _ => s
  | .untilEvent _ => { s with addrFlag := false }

end World

abbrev machine (δ : Type) [Device δ] : Machine sig (World δ) where
  access o s := s.access o
  exits c s := s.exits c
  poll c s := s.poll c
  step := World.hwStep

end ImuFirmware
