/-
The integer arithmetic of `Unfilter_roll_pitch_cal`.

An `int` is an integer.  An operation whose result does not fit in 32 bits is
undefined in C and has no value here.  The calls of `sqrt` and `atan2` are floating
point, and the model ends with the integers they are given.
-/
import Mathlib.Tactic.Linarith
import ImuFirmware.Sensors.Decoding

namespace ImuFirmware

open Polling

/-! ## Operations on `int` -/

def int32 (v : Int) : Option Int := if -2 ^ 31 ≤ v ∧ v < 2 ^ 31 then some v else none

def mulInt (a b : Int) : Option Int := int32 (a * b)

def addInt (a b : Int) : Option Int := int32 (a + b)

def negInt (a : Int) : Option Int := int32 (-a)

theorem int32_of_fits {v : Int} (h : -2 ^ 31 ≤ v ∧ v < 2 ^ 31) : int32 v = some v := if_pos h

theorem int32_of_large {v : Int} (h : 2 ^ 31 ≤ v) : int32 v = none :=
  if_neg fun hfits => absurd hfits.2 (Int.not_lt.mpr h)

/-- An `int16_t` in an expression. -/
def intOf (v : BitVec 16) : Int := (promote v).toInt

theorem intOf_eq (v : BitVec 16) : intOf v = v.toInt := toInt_promote v

theorem intOf_bounds (v : BitVec 16) : -32768 ≤ intOf v ∧ intOf v < 32768 := by
  have hlow := BitVec.le_toInt v
  have hhigh := BitVec.toInt_lt (x := v)
  rw [intOf_eq]
  omega

/-! ## The function -/

/-- The integers in the calls `atan2(opposite, sqrt(squares))`. -/
structure Tilt where
  rollOpposite : Int
  rollSquares : Int
  pitchOpposite : Int
  pitchSquares : Int
  deriving DecidableEq, Repr

/-- `u*u + w*w`. -/
def sumOfSquares (u w : BitVec 16) : Option Int := do
  let uu ← mulInt (intOf u) (intOf u)
  let ww ← mulInt (intOf w) (intOf w)
  addInt uu ww

def tiltArguments (acc0 acc1 acc2 : BitVec 16) : Option Tilt := do
  let rollSquares ← sumOfSquares acc0 acc2
  let pitchOpposite ← negInt (intOf acc0)
  let pitchSquares ← sumOfSquares acc1 acc2
  pure ⟨intOf acc1, rollSquares, pitchOpposite, pitchSquares⟩

/-- `none` is a run into undefined behaviour. -/
def unfilterRollPitchCal (rawData accData : Nat) : Driver (Option Tilt) := do
  adxl345Data rawData accData
  let acc0 ← load16 accData
  let acc1 ← load16 (accData + 2)
  let acc2 ← load16 (accData + 4)
  pure (tiltArguments acc0 acc1 acc2)

/-! ## When it is defined -/

theorem square_fits {a : Int} (h : -32768 ≤ a ∧ a < 32768) : 0 ≤ a * a ∧ a * a ≤ 2 ^ 30 := by
  have hleft : 0 ≤ a + 32768 := by omega
  have hright : 0 ≤ 32768 - a := by omega
  have hprod := Int.mul_nonneg hleft hright
  have hsq := mul_self_nonneg a
  constructor
  · exact hsq
  · linarith

theorem square_lt {a : Int} (h : -32768 ≤ a ∧ a < 32768) (hne : a ≠ -32768) :
    a * a < 2 ^ 30 := by
  have hleft : 0 ≤ a + 32767 := by omega
  have hright : 0 ≤ 32767 - a := by omega
  have hprod := Int.mul_nonneg hleft hright
  linarith

/-- Two squares overflow only where both are 2^30. -/
theorem sumOfSquares_eq (u w : BitVec 16) :
    sumOfSquares u w = if intOf u = -32768 ∧ intOf w = -32768 then none
      else some (intOf u * intOf u + intOf w * intOf w) := by
  have hu := square_fits (intOf_bounds u)
  have hw := square_fits (intOf_bounds w)
  have huu : mulInt (intOf u) (intOf u) = some (intOf u * intOf u) :=
    int32_of_fits (by omega)
  have hww : mulInt (intOf w) (intOf w) = some (intOf w * intOf w) :=
    int32_of_fits (by omega)
  have hsum : sumOfSquares u w = int32 (intOf u * intOf u + intOf w * intOf w) := by
    rw [sumOfSquares, huu, hww]
    rfl
  rw [hsum]
  split
  case isTrue hmin =>
    rw [hmin.1, hmin.2]
    exact int32_of_large (by decide)
  case isFalse hmin =>
    have hlt : intOf u * intOf u + intOf w * intOf w < 2 ^ 31 := by
      by_cases hmin' : intOf u = -32768
      · have hw' := square_lt (intOf_bounds w) fun h => hmin ⟨hmin', h⟩
        omega
      · have hu' := square_lt (intOf_bounds u) hmin'
        omega
    exact int32_of_fits (by omega)

theorem negInt_intOf (v : BitVec 16) : negInt (intOf v) = some (-intOf v) := by
  have hv := intOf_bounds v
  exact int32_of_fits (by omega)

/-- The arguments are defined and exact. -/
def ExactTilt (x y z : Int) (r : Option Tilt) : Prop :=
  ∃ t, r = some t ∧ t.rollOpposite = y ∧ t.pitchOpposite = -x ∧
    t.rollSquares = x ^ 2 + z ^ 2 ∧ t.pitchSquares = y ^ 2 + z ^ 2 ∧
    0 ≤ t.rollSquares ∧ 0 ≤ t.pitchSquares

theorem exactTilt_iff (acc0 acc1 acc2 : BitVec 16) :
    ExactTilt (intOf acc0) (intOf acc1) (intOf acc2) (tiltArguments acc0 acc1 acc2) ↔
      ¬ (intOf acc2 = -32768 ∧ (intOf acc0 = -32768 ∨ intOf acc1 = -32768)) := by
  rw [tiltArguments, sumOfSquares_eq, sumOfSquares_eq, negInt_intOf]
  constructor
  · intro hcase hcase'
    obtain ⟨t, ht, -⟩ := hcase
    rcases hcase' with ⟨hz, hx | hy⟩
    · rw [if_pos ⟨hx, hz⟩] at ht
      exact nomatch ht
    · rw [if_pos (c := intOf acc1 = -32768 ∧ intOf acc2 = -32768) ⟨hy, hz⟩] at ht
      split at ht
      · exact nomatch ht
      · exact nomatch ht
  · intro h
    have hroll : ¬ (intOf acc0 = -32768 ∧ intOf acc2 = -32768) :=
      fun hmin => h ⟨hmin.2, Or.inl hmin.1⟩
    have hpitch : ¬ (intOf acc1 = -32768 ∧ intOf acc2 = -32768) :=
      fun hmin => h ⟨hmin.2, Or.inr hmin.1⟩
    rw [if_neg hroll, if_neg hpitch]
    have hx := (square_fits (intOf_bounds acc0)).1
    have hy := (square_fits (intOf_bounds acc1)).1
    have hz := (square_fits (intOf_bounds acc2)).1
    refine ⟨_, rfl, rfl, rfl, ?_, ?_, ?_, ?_⟩
    · show _ = intOf acc0 ^ 2 + intOf acc2 ^ 2
      rw [sq, sq]
    · show _ = intOf acc1 ^ 2 + intOf acc2 ^ 2
      rw [sq, sq]
    · exact Int.add_nonneg hx hz
    · exact Int.add_nonneg hy hz

/-! ## Over the six bytes -/

/-- The axis whose low byte is `raw_data[i]`. -/
def axis (d : RegisterFile) (i : Nat) : BitVec 16 :=
  joinBytes (byteAt d 0x32#8 (i + 1)) (byteAt d 0x32#8 i)

/-- The two bytes of -32768. -/
def Lowest (d : RegisterFile) (i : Nat) : Prop :=
  byteAt d 0x32#8 i = 0x00#8 ∧ byteAt d 0x32#8 (i + 1) = 0x80#8

theorem axis_lowest_iff (d : RegisterFile) (i : Nat) :
    intOf (axis d i) = -32768 ↔ Lowest d i := by
  have hbytes : (0x8000#16 : BitVec 16) = joinBytes 0x80#8 0x00#8 := by decide
  have hint : (-32768 : Int) = (0x8000#16 : BitVec 16).toInt := by decide
  rw [intOf_eq, hint, BitVec.toInt_inj, hbytes]
  constructor
  · intro h
    exact ⟨(joinBytes_inj h).2, (joinBytes_inj h).1⟩
  · intro h
    rw [axis, h.1, h.2]

/-- Some run on an accelerometer with the registers of `d` comes to `r`. -/
def Tilts (d : RegisterFile) (r : Option Tilt) : Prop :=
  ∃ (s t : World RegisterFile) (ms : List Move) (rawData accData : Nat),
    Quiet s.devs s.mem s.clocked s ∧ s.devs 0x53#7 = some d ∧
    (accData + 6 ≤ rawData ∨ rawData + 6 ≤ accData) ∧
    (machine RegisterFile).Returns ms (unfilterRollPitchCal rawData accData) s r t

theorem wp_unfilterRollPitchCal {G : Guard sig (World RegisterFile)} {s : World RegisterFile}
    {rawData accData : Nat} {d : RegisterFile} (hs : Quiet s.devs s.mem s.clocked s)
    (hd : s.devs 0x53#7 = some d) (hdisjoint : accData + 6 ≤ rawData ∨ rawData + 6 ≤ accData) :
    wp (machine RegisterFile) G anyWait
      (fun r _ => r = tiltArguments (axis d 0) (axis d 2) (axis d 4))
      (unfilterRollPitchCal rawData accData) s := by
  unfold unfilterRollPitchCal
  refine wp_seq (wp_readLowFirst hs hd hdisjoint) fun _ s₁ hout => ?_
  simp only [outputs, Prod.mk.injEq] at hout
  refine wp_seq (wp_load16 rfl) fun acc0 s₂ h0 => ?_
  refine wp_seq (wp_load16 h0.2) fun acc1 s₃ h1 => ?_
  refine wp_seq (wp_load16 h1.2) fun acc2 s₄ h2 => ?_
  show tiltArguments acc0 acc1 acc2 = _
  rw [h0.1, h1.1, h2.1, hout.1, hout.2.1, hout.2.2]
  rfl

/-- From every settled state with the accelerometer on the bus the function can be run to
its end. -/
theorem unfilterRollPitchCal_returns {s : World RegisterFile}
    (hs : Settled ((0x53#7 : BitVec 7) = ·) (Present ((0x53#7 : BitVec 7) = ·)) s)
    (rawData accData : Nat) :
    ∃ ms r t, (machine RegisterFile).Returns ms (unfilterRollPitchCal rawData accData) s r t := by
  have hloads : ∀ a b c : Nat, (do
      let acc0 ← load16 a
      let acc1 ← load16 b
      let acc2 ← load16 c
      pure (tiltArguments acc0 acc1 acc2) : Driver (Option Tilt)).WaitFree := by
    intro _ _ _ _ _ _ _ _ _
    trivial
  have hcount : 0 < (6#8 : Byte).toNat := by decide
  have h := readMultiReg_then_returns RegisterFile.put_isSome adxl345 0x32#8 rawData rfl hcount hs
    (Prog.waitFree_bind (waitFree_convertLoop (fun i => rawData + (i + 1)) (fun i => rawData + i)
      (fun j => accData + 2 * j)) fun _ => hloads accData (accData + 2) (accData + 4))
  rw [← bind_assoc] at h
  obtain ⟨ms, c, hrun, hret⟩ := h
  obtain ⟨⟨r, t⟩, hres⟩ := Option.isSome_iff_exists.mp hret
  have hrun' : (machine RegisterFile).run ms
      ⟨unfilterRollPitchCal rawData accData, s, []⟩ = some c := hrun
  refine ⟨ms, r, t, ?_⟩
  rw [Machine.Returns, hrun']
  exact hres

theorem exists_tilts (d : RegisterFile) : ∃ r, Tilts d r := by
  let devs : BitVec 7 → Option RegisterFile := Function.update (fun _ => none) 0x53#7 (some d)
  have hd : devs 0x53#7 = some d := Function.update_self ..
  obtain ⟨ms, r, t, hret⟩ := unfilterRollPitchCal_returns (settled_alone 0x53#7 d fun _ => 0#8) 6 0
  exact ⟨r, World.boot devs fun _ => 0#8, t, ms, 6, 0, quiet_boot _ _, hd,
    Or.inl (Nat.le_refl _), hret⟩

/-- The arithmetic is exact except where z and one of x and y are the lowest value. -/
theorem unfilterRollPitchCal_exact_iff (d : RegisterFile) :
    (∀ s : World RegisterFile,
      Settled ((0x53#7 : BitVec 7) = ·) (Present ((0x53#7 : BitVec 7) = ·)) s →
      ∀ rawData accData, ∃ ms r t,
        (machine RegisterFile).Returns ms (unfilterRollPitchCal rawData accData) s r t) ∧
    (∃ r, Tilts d r) ∧ ∀ r, Tilts d r →
      (ExactTilt (axis d 0).toInt (axis d 2).toInt (axis d 4).toInt r ↔
        ¬ (Lowest d 4 ∧ (Lowest d 0 ∨ Lowest d 2))) := by
  refine ⟨fun s hs => unfilterRollPitchCal_returns hs, exists_tilts d,
    fun r ⟨s, t, ms, rawData, accData, hs, hd, hdisjoint, hret⟩ => ?_⟩
  have hkeep : (machine RegisterFile).Keeps (fun _ _ _ => True) ms
      ⟨unfilterRollPitchCal rawData accData, s, []⟩ :=
    (machine RegisterFile).keeps_of_forall (fun _ _ _ => trivial) ms _
  have hr := wp_returns (wp_unfilterRollPitchCal hs hd hdisjoint) hkeep hret
  rw [hr, ← axis_lowest_iff, ← axis_lowest_iff, ← axis_lowest_iff, ← intOf_eq, ← intOf_eq,
    ← intOf_eq]
  exact exactTilt_iff _ _ _

/-- An accelerometer with -32768 in x and in z. -/
def lowestFile : RegisterFile :=
  ⟨fun r => if r = 0x33#8 ∨ r = 0x37#8 then 0x80#8 else 0x00#8, 0x00#8, false⟩

def lowestBus : World RegisterFile :=
  World.boot (Function.update (fun _ => none) 0x53#7 (some lowestFile)) fun _ => 0x00#8

theorem unfilterRollPitchCal_overflow :
    (∃ t, (machine RegisterFile).Returns (readSixMoves ++ List.replicate 6 .program)
      (unfilterRollPitchCal 100 200) lowestBus none t) ∧
    ¬ ExactTilt (axis lowestFile 0).toInt (axis lowestFile 2).toInt
      (axis lowestFile 4).toInt none := by
  have hrun : (((machine RegisterFile).run (readSixMoves ++ List.replicate 6 .program)
      ⟨unfilterRollPitchCal 100 200, lowestBus, []⟩).bind Config.result).map
      (fun r => r.1) = some none := by
    decide +kernel
  obtain ⟨⟨r, t⟩, ht, hr⟩ := Option.map_eq_some_iff.mp hrun
  obtain rfl : r = none := hr
  exact ⟨⟨t, ht⟩, fun ⟨_, h, _⟩ => nomatch h⟩

end ImuFirmware
