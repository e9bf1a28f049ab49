/-
The delay of the sampling loop, `Timer.c`.

Time is counted in ticks of TIM2.  A run of `EnsureSetRuntime` is the list of its
passes, each with the ticks that go by before its two reads of the counter, and the
loop body and the caller take any number of ticks as well.  `uint32_t` arithmetic is
that of `BitVec 32`, where a quotient by zero is zero, as the core gives it.
-/
import Mathlib.Algebra.Ring.Nat
import Mathlib.Data.List.Forall2

namespace ImuFirmware

/-! ## Setting up the timer -/

/-- The two fields of the vendor library's structure that the delay depends on. -/
structure TimeBase where
  prescaler : BitVec 16
  period : BitVec 32
  deriving DecidableEq, Repr

/-- `(TIM_Prescaler + 1) * DelayFreq`. -/
def tickDivisor (prescaler : BitVec 16) (delayFreq : BitVec 32) : BitVec 32 :=
  (prescaler.setWidth 32 + 1#32) * delayFreq

/-- The search loop, for at most `fuel` rounds. -/
def searchPrescaler (delayFreq : BitVec 32) : Nat → BitVec 16 → Option (BitVec 16)
  | 0, _ => none
  | fuel + 1, prescaler =>
      if 168000000#32 / delayFreq % (prescaler.setWidth 32 + 1#32) - 1#32 = 0#32 then
        some prescaler
      else
        let next := prescaler + 1#16
        if 65535#16 ≤ next then some next
        else searchPrescaler delayFreq fuel next

def initializeTimer (delayFreq : BitVec 32) : Option TimeBase := do
  let prescaler ← searchPrescaler delayFreq 65536 0#16
  pure ⟨prescaler, 168000000#32 / tickDivisor prescaler delayFreq - 1#32⟩

theorem toNat_next {prescaler : BitVec 16} (h : prescaler.toNat < 65535) :
    (prescaler + 1#16).toNat = prescaler.toNat + 1 := by
  rw [BitVec.toNat_add]
  show (prescaler.toNat + 1) % 2 ^ 16 = _
  omega

/-- The test that breaks the search off. -/
theorem next_ge_iff {prescaler : BitVec 16} (h : prescaler.toNat < 65535) :
    65535#16 ≤ prescaler + 1#16 ↔ prescaler.toNat + 1 = 65535 := by
  rw [BitVec.le_def, toNat_next h]
  show 65535 ≤ prescaler.toNat + 1 ↔ _
  omega

theorem searchPrescaler_isSome {delayFreq : BitVec 32} {fuel : Nat} {prescaler : BitVec 16}
    (hlow : prescaler.toNat < 65535) (hfuel : 65535 ≤ prescaler.toNat + fuel) :
    (searchPrescaler delayFreq fuel prescaler).isSome = true := by
  induction fuel generalizing prescaler with
  | zero => omega
  | succ fuel ih =>
      have hnext := toNat_next hlow
      rw [searchPrescaler]
      split
      · rfl
      · show (if 65535#16 ≤ prescaler + 1#16 then _ else _ : Option (BitVec 16)).isSome = true
        split
        case isTrue => rfl
        case isFalse hge =>
          rw [next_ge_iff hlow] at hge
          exact ih (by omega) (by omega)

theorem initializeTimer_eq_some {delayFreq : BitVec 32} {timer : TimeBase}
    (h : initializeTimer delayFreq = some timer) :
    searchPrescaler delayFreq 65536 0#16 = some timer.prescaler ∧
      timer.period = 168000000#32 / tickDivisor timer.prescaler delayFreq - 1#32 := by
  obtain ⟨prescaler, hsearch, hset⟩ := Option.bind_eq_some_iff.mp h
  obtain rfl := Option.some.inj hset
  exact ⟨hsearch, rfl⟩

/-- The search always ends. -/
theorem initializeTimer_isSome (delayFreq : BitVec 32) :
    (initializeTimer delayFreq).isSome = true := by
  have hlow : (0#16).toNat < 65535 := by decide
  have hsearch : (searchPrescaler delayFreq 65536 0#16).isSome = true :=
    searchPrescaler_isSome hlow (by decide)
  obtain ⟨prescaler, hprescaler⟩ := Option.isSome_iff_exists.mp hsearch
  rw [initializeTimer, hprescaler]
  rfl

/-! ## Waiting -/

/-- TIM2 at time `t`: it counts from 0 to the period and wraps, and stood at `start` at
time 0. -/
def counter (period : BitVec 32) (start t : Nat) : BitVec 32 :=
  BitVec.ofNat 32 ((start + t) % (period.toNat + 1))

/-- One pass of the wait loop: the ticks before the read that sets `RapFlag`, and from
there to the read that sets `check`. -/
structure Pass where
  before : Nat
  between : Nat
  deriving DecidableEq, Repr

/-- `check` after a pass. -/
def nextCheck (count : Nat → BitVec 32) (pastCountVal rapAddition : BitVec 32)
    (flagged valued : Nat) : BitVec 32 :=
  if pastCountVal > count flagged then rapAddition + count valued
  else count valued - pastCountVal

/-- The wait loop with the passes `passes`, from time `now` on: the time of the read
before the test that ends it.  There is none where it goes round more or less often. -/
def ensureLoop (count : Nat → BitVec 32) (pastCountVal rapAddition ticks : BitVec 32) :
    List Pass → BitVec 32 → Nat → Option Nat
  | [], check, now => if check < ticks then none else some now
  | pass :: passes, check, now =>
      if check < ticks then
        let flagged := now + pass.before
        let valued := flagged + pass.between
        ensureLoop count pastCountVal rapAddition ticks passes
          (nextCheck count pastCountVal rapAddition flagged valued) valued
      else none

/-- The local `count` of `EnsureSetRuntime`. -/
def delayTicks (timer : TimeBase) (delayFreq : BitVec 32) : BitVec 32 :=
  84000000#32 / tickDivisor timer.prescaler delayFreq - 1#32

/-- `check` is what the uninitialised local happens to hold. -/
def ensureSetRuntime (timer : TimeBase) (count : Nat → BitVec 32)
    (pastCountVal delayFreq check : BitVec 32) (passes : List Pass) (now : Nat) : Option Nat :=
  ensureLoop count pastCountVal (timer.period - pastCountVal) (delayTicks timer delayFreq) passes
    check now

/-! ## The sampling loop -/

/-- What the surroundings of one round of `while (1)` decide. -/
structure Round where
  before : Nat
  body : Nat
  check : BitVec 32
  passes : List Pass
  deriving DecidableEq, Repr

/-- When each round read `PastCountVal` and when its `EnsureSetRuntime` returned. -/
def mainLoop (timer : TimeBase) (start : Nat) (delayFreq : BitVec 32) :
    List Round → Nat → Option (List (Nat × Nat))
  | [], _ => some []
  | round :: rounds, now => do
      let read := now + round.before
      let pastCountVal := counter timer.period start read
      let finish ← ensureSetRuntime timer (counter timer.period start) pastCountVal delayFreq
        round.check round.passes (read + round.body)
      let rest ← mainLoop timer start delayFreq rounds finish
      pure ((read, finish) :: rest)

/-! ## The two quotients -/

section

variable {delayFreq : BitVec 32} {prescaler : BitVec 16} {timer : TimeBase}

theorem toNat_setWidth_succ (prescaler : BitVec 16) :
    (prescaler.setWidth 32 + 1#32).toNat = prescaler.toNat + 1 := by
  have hprescaler := prescaler.isLt
  rw [BitVec.toNat_add, BitVec.toNat_setWidth]
  show (prescaler.toNat % 2 ^ 32 + 1) % 2 ^ 32 = _
  omega

theorem toNat_tickDivisor (h : (prescaler.toNat + 1) * delayFreq.toNat < 2 ^ 32) :
    (tickDivisor prescaler delayFreq).toNat = (prescaler.toNat + 1) * delayFreq.toNat := by
  rw [tickDivisor, BitVec.toNat_mul, toNat_setWidth_succ]
  exact Nat.mod_eq_of_lt h

/-- A quotient by a product that does not wrap. -/
theorem toNat_div_tickDivisor (clock : BitVec 32)
    (h : (prescaler.toNat + 1) * delayFreq.toNat < 2 ^ 32) :
    (clock / tickDivisor prescaler delayFreq).toNat =
      clock.toNat / ((prescaler.toNat + 1) * delayFreq.toNat) := by
  rw [BitVec.toNat_udiv, toNat_tickDivisor h]

theorem toNat_pred {v : BitVec 32} (h : 1 ≤ v.toNat) : (v - 1#32).toNat + 1 = v.toNat := by
  rw [BitVec.toNat_sub_of_le h]
  show v.toNat - 1 + 1 = v.toNat
  omega

/-- Where a quotient is not zero, its divisor is at most the clock. -/
theorem divisor_le {clock d : Nat} (hq : 1 ≤ clock / d) : d ≤ clock := by
  by_contra hlarge
  rw [Nat.div_eq_of_lt (Nat.lt_of_not_le hlarge)] at hq
  exact Nat.not_succ_le_zero 0 hq

theorem toNat_delayTicks
    (hq : 1 ≤ 84000000 / ((timer.prescaler.toNat + 1) * delayFreq.toNat)) :
    (delayTicks timer delayFreq).toNat + 1 =
      84000000 / ((timer.prescaler.toNat + 1) * delayFreq.toNat) := by
  have hle := divisor_le hq
  have hwrap : (timer.prescaler.toNat + 1) * delayFreq.toNat < 2 ^ 32 := by omega
  have hdiv := toNat_div_tickDivisor 84000000#32 hwrap
  rw [delayTicks, toNat_pred (hdiv ▸ hq), hdiv]
  rfl

theorem initializeTimer_period (htimer : initializeTimer delayFreq = some timer)
    (hq : 1 ≤ 168000000 / ((timer.prescaler.toNat + 1) * delayFreq.toNat)) :
    timer.period.toNat + 1 =
      168000000 / ((timer.prescaler.toNat + 1) * delayFreq.toNat) := by
  have hle := divisor_le hq
  have hwrap : (timer.prescaler.toNat + 1) * delayFreq.toNat < 2 ^ 32 := by omega
  have hdiv := toNat_div_tickDivisor 168000000#32 hwrap
  rw [(initializeTimer_eq_some htimer).2, toNat_pred (hdiv ▸ hq), hdiv]
  rfl

/-- A cycle of the counter has room for two waits. -/
theorem initializeTimer_twice (htimer : initializeTimer delayFreq = some timer)
    (hq : 1 ≤ 84000000 / ((timer.prescaler.toNat + 1) * delayFreq.toNat)) :
    2 * (84000000 / ((timer.prescaler.toNat + 1) * delayFreq.toNat)) ≤ timer.period.toNat + 1 := by
  have htwice : 2 * (84000000 / ((timer.prescaler.toNat + 1) * delayFreq.toNat)) ≤
      168000000 / ((timer.prescaler.toNat + 1) * delayFreq.toNat) :=
    Nat.mul_div_le_mul_div_assoc 2 84000000 _
  rw [initializeTimer_period htimer (by omega)]
  exact htwice

theorem initializeTimer_period_lt (htimer : initializeTimer delayFreq = some timer)
    (hq : 1 ≤ 84000000 / ((timer.prescaler.toNat + 1) * delayFreq.toNat)) :
    timer.period.toNat < 168000000 := by
  have hdiv := Nat.div_le_self 168000000 ((timer.prescaler.toNat + 1) * delayFreq.toNat)
  have hle : 84000000 / ((timer.prescaler.toNat + 1) * delayFreq.toNat) ≤
      168000000 / ((timer.prescaler.toNat + 1) * delayFreq.toNat) :=
    Nat.div_le_div_right (by decide)
  have hperiod := initializeTimer_period htimer (by omega)
  omega

end

/-! ## The counter -/

theorem toNat_counter (period : BitVec 32) (start t : Nat) :
    (counter period start t).toNat = (start + t) % (period.toNat + 1) := by
  have hlt : (start + t) % (period.toNat + 1) < period.toNat + 1 :=
    Nat.mod_lt _ (Nat.succ_pos _)
  have hperiod := period.isLt
  rw [counter, BitVec.toNat_ofNat]
  exact Nat.mod_eq_of_lt (by omega)

theorem counter_le (period : BitVec 32) (start t : Nat) :
    (counter period start t).toNat ≤ period.toNat := by
  rw [toNat_counter]
  exact Nat.le_of_lt_succ (Nat.mod_lt _ (Nat.succ_pos _))

/-- Within one cycle the counter wraps at most once. -/
theorem toNat_counter_add {period : BitVec 32} {start t e : Nat} (he : e ≤ period.toNat) :
    (counter period start (t + e)).toNat =
      if (counter period start t).toNat + e ≤ period.toNat then
        (counter period start t).toNat + e
      else (counter period start t).toNat + e - (period.toNat + 1) := by
  have hle := counter_le period start t
  have hadd : (counter period start (t + e)).toNat =
      ((counter period start t).toNat + e) % (period.toNat + 1) := by
    rw [toNat_counter, toNat_counter, Nat.mod_add_mod, Nat.add_assoc]
  rw [hadd]
  split
  case isTrue h => exact Nat.mod_eq_of_lt (by omega)
  case isFalse h =>
    rw [Nat.mod_eq_sub_mod (by omega)]
    exact Nat.mod_eq_of_lt (by omega)

end ImuFirmware
