/-
Sixteen-bit words in byte memory, low byte first.
-/
import Mathlib.Logic.Function.Basic
import ImuFirmware.I2C.Registers

namespace ImuFirmware

def joinBytes (high low : Byte) : BitVec 16 := high ++ low

def lowByte (v : BitVec 16) : Byte := v.setWidth 8

def highByte (v : BitVec 16) : Byte := (v >>> 8).setWidth 8

theorem lowByte_joinBytes (high low : Byte) : lowByte (joinBytes high low) = low := by
  rw [lowByte, joinBytes, BitVec.setWidth_append]
  simp

theorem highByte_joinBytes (high low : Byte) : highByte (joinBytes high low) = high := by
  unfold highByte
  ext i hi
  rw [BitVec.getElem_setWidth, BitVec.getLsbD_ushiftRight]
  show (high ++ low).getLsbD (8 + i) = high[i]
  rw [BitVec.getLsbD_append, if_neg (by omega), Nat.add_sub_cancel_left,
    BitVec.getLsbD_eq_getElem]

theorem joinBytes_bytes (v : BitVec 16) : joinBytes (highByte v) (lowByte v) = v := by
  unfold joinBytes highByte lowByte
  ext i hi
  rw [BitVec.getElem_append]
  simp only [BitVec.getElem_setWidth, BitVec.getLsbD_ushiftRight]
  split
  · rw [BitVec.getLsbD_eq_getElem]
  · have hidx : 8 + (i - 8) = i := by omega
    rw [hidx, BitVec.getLsbD_eq_getElem]

theorem joinBytes_inj {h l h' l' : Byte} (h₁ : joinBytes h l = joinBytes h' l') :
    h = h' ∧ l = l' := by
  constructor
  · rw [← highByte_joinBytes h l, h₁, highByte_joinBytes]
  · rw [← lowByte_joinBytes h l, h₁, lowByte_joinBytes]

/-! ## Words in memory -/

def read16 (m : Nat → Byte) (a : Nat) : BitVec 16 := joinBytes (m (a + 1)) (m a)

def write16 (m : Nat → Byte) (a : Nat) (v : BitVec 16) : Nat → Byte :=
  Function.update (Function.update m a (lowByte v)) (a + 1) (highByte v)

theorem write16_of_ne {m : Nat → Byte} {a p : Nat} {v : BitVec 16}
    (h : p + 1 ≤ a ∨ a + 2 ≤ p) : write16 m a v p = m p := by
  have hlow : p ≠ a := by omega
  have hhigh : p ≠ a + 1 := by omega
  rw [write16, Function.update_of_ne hhigh, Function.update_of_ne hlow]

theorem read16_write16 (m : Nat → Byte) (a : Nat) (v : BitVec 16) :
    read16 (write16 m a v) a = v := by
  have hne : a ≠ a + 1 := by omega
  rw [read16, write16, Function.update_self, Function.update_of_ne hne, Function.update_self,
    joinBytes_bytes]

theorem read16_write16_of_ne {m : Nat → Byte} {a p : Nat} {v : BitVec 16}
    (h : p + 2 ≤ a ∨ a + 2 ≤ p) : read16 (write16 m a v) p = read16 m p := by
  rw [read16, write16_of_ne (by omega), write16_of_ne (by omega), read16]

end ImuFirmware
