/-
How the delay depends on where the counter stood.

`rap_addtion` is one tick short: it counts the ticks from `PastCountVal` to the period
and leaves out the one in which the counter goes from there to 0.  Polled at every tick,
a wait across a wrap is therefore one tick longer than one that ends before.
-/
import ImuFirmware.Timer.Window

namespace ImuFirmware

/-- `check` after a pass with both reads in the tick `e` after that of `PastCountVal`. -/
def elapsedCheck (period past : BitVec 32) (e : Nat) : BitVec 32 :=
  nextCheck (counter period past.toNat) past (period - past) e e

/-- The tick in which a delay of `q` ticks ends: the last of them, or the one after it if
the counter has wrapped by then. -/
def dueTick (period past : BitVec 32) (q : Nat) : Nat :=
  if past.toNat + q ≤ period.toNat + 1 then q - 1 else q

/-- A first pass on entry, and one in each tick after it. -/
def everyTick : Nat → Pass
  | 0 => ⟨0, 0⟩
  | _ + 1 => ⟨1, 0⟩

/-- With `check` 0 and `elapsed` ticks gone by on entry, the wait returns when `finish`
have. -/
def ReturnsAfter (timer : TimeBase) (delayFreq past : BitVec 32) (elapsed finish : Nat) : Prop :=
  ReturnsAt timer (counter timer.period past.toNat) past delayFreq 0#32 everyTick elapsed finish

/-! ## The value of `check` -/

section

variable {period past past' ticks : BitVec 32} {e q finish : Nat}

theorem counter_zero (hpast : past.toNat ≤ period.toNat) :
    counter period past.toNat 0 = past := by
  rw [← BitVec.toNat_inj, toNat_counter]
  exact Nat.mod_eq_of_lt (Nat.lt_succ_of_le hpast)

theorem elapsedCheck_eq (hpast : past.toNat ≤ period.toNat) :
    elapsedCheck period past e = checkAfter period past.toNat 0 e e := by
  rw [checkAfter, counter_zero hpast, Nat.zero_add]
  rfl

theorem elapsedCheck_unwrapped (h : past.toNat + e ≤ period.toNat) :
    (elapsedCheck period past e).toNat = e := by
  have hpast : past.toNat ≤ period.toNat := by omega
  rw [elapsedCheck_eq hpast]
  refine checkAfter_beforeWrap (Nat.le_refl e) (by omega) ?_
  rw [untilWrap, counter_zero hpast]
  omega

/-- The tick of the wrap is not counted. -/
theorem elapsedCheck_wrapped (hpast : past.toNat ≤ period.toNat) (he : e ≤ period.toNat)
    (h : period.toNat < past.toNat + e) :
    (elapsedCheck period past e).toNat + 1 = e := by
  rw [elapsedCheck_eq hpast]
  refine checkAfter_afterWrap (Nat.le_refl e) he ?_
  rw [untilWrap, counter_zero hpast]
  omega

/-- The two branches agree where both phases take the same one. -/
theorem elapsedCheck_eq_iff (hpast : past.toNat ≤ period.toNat)
    (hpast' : past'.toNat ≤ period.toNat) (he : e ≤ period.toNat) :
    elapsedCheck period past e = elapsedCheck period past' e ↔
      (past.toNat + e ≤ period.toNat ↔ past'.toNat + e ≤ period.toNat) := by
  rw [← BitVec.toNat_inj]
  by_cases h : past.toNat + e ≤ period.toNat
  · have hcheck := elapsedCheck_unwrapped h
    by_cases h' : past'.toNat + e ≤ period.toNat
    · have hcheck' := elapsedCheck_unwrapped h'
      omega
    · have hcheck' := elapsedCheck_wrapped hpast' he (Nat.lt_of_not_le h')
      omega
  · have hcheck := elapsedCheck_wrapped hpast he (Nat.lt_of_not_le h)
    by_cases h' : past'.toNat + e ≤ period.toNat
    · have hcheck' := elapsedCheck_unwrapped h'
      omega
    · have hcheck' := elapsedCheck_wrapped hpast' he (Nat.lt_of_not_le h')
      omega

theorem elapsedCheck_lt_iff (hroomy : Roomy period ticks q) (hpast : past.toNat ≤ period.toNat)
    (he : e ≤ period.toNat) : elapsedCheck period past e < ticks ↔ e < dueTick period past q := by
  have hdelay := hroomy.delay
  rw [BitVec.lt_def, dueTick]
  by_cases h : past.toNat + e ≤ period.toNat
  · have hcheck := elapsedCheck_unwrapped h
    split <;> omega
  · have hcheck := elapsedCheck_wrapped hpast he (Nat.lt_of_not_le h)
    split <;> omega

theorem dueTick_le (past : BitVec 32) (hroomy : Roomy period ticks q) :
    dueTick period past q ≤ period.toNat := by
  have hdelay := hroomy.delay
  have htwice := hroomy.twice
  rw [dueTick]
  split <;> omega

/-! ## The wait -/

/-- From the pass in tick `e` on. -/
theorem loopEnds_everyTick {room : Nat} (hroomy : Roomy period ticks q)
    (hpast : past.toNat ≤ period.toNat) (he : e ≤ period.toNat)
    (hroom : dueTick period past q ≤ e + room) :
    LoopEnds (counter period past.toNat) past (period - past) ticks
        (fun k => everyTick (k + 1)) (elapsedCheck period past e) e finish ↔
      finish = max e (dueTick period past q) := by
  induction room generalizing e with
  | zero =>
      have hdue : dueTick period past q ≤ e := hroom
      have hdone : ¬ elapsedCheck period past e < ticks := by
        rw [elapsedCheck_lt_iff hroomy hpast he]
        exact Nat.not_lt_of_le hdue
      rw [loopEnds_of_not_lt hdone, Nat.max_eq_left hdue]
  | succ room ih =>
      by_cases hcheck : elapsedCheck period past e < ticks
      · have hlt := (elapsedCheck_lt_iff hroomy hpast he).mp hcheck
        have hdue := dueTick_le past hroomy
        have he' : e + 1 ≤ period.toNat := by omega
        have hroom' : dueTick period past q ≤ e + 1 + room := by omega
        have hnext := ih he' hroom'
        rw [Nat.max_eq_right hlt] at hnext
        rw [loopEnds_of_lt hcheck, Nat.max_eq_right (Nat.le_of_lt hlt)]
        exact hnext
      · have hge := mt (elapsedCheck_lt_iff hroomy hpast he).mpr hcheck
        rw [loopEnds_of_not_lt hcheck, Nat.max_eq_left (Nat.le_of_not_lt hge)]

end

/-! ## Every frequency -/

section

variable {delayFreq past past' : BitVec 32} {timer : TimeBase} {elapsed finish : Nat}

/-- The wait is over in its due tick, or at once where that is past. -/
theorem returnsAfter_iff (htimer : initializeTimer delayFreq = some timer)
    (hq : 2 ≤ 84000000 / ((timer.prescaler.toNat + 1) * delayFreq.toNat))
    (hpast : past.toNat ≤ timer.period.toNat) (helapsed : elapsed ≤ timer.period.toNat) :
    ReturnsAfter timer delayFreq past elapsed finish ↔
      finish = max elapsed (dueTick timer.period past
        (84000000 / ((timer.prescaler.toNat + 1) * delayFreq.toNat))) := by
  have hroomy := initializeTimer_roomy htimer (by omega)
  have hcheck : 0#32 < delayTicks timer delayFreq := by
    have hdelay := hroomy.delay
    rw [BitVec.lt_def, BitVec.toNat_zero]
    omega
  have hdue := dueTick_le past hroomy
  rw [ReturnsAfter, returnsAt_iff, loopEnds_of_lt hcheck]
  exact loopEnds_everyTick hroomy hpast helapsed (Nat.le_trans hdue (Nat.le_add_left ..))

/-- Two waits return together exactly where both see the counter wrap, or neither does, or
the delay was over on entry.  They give `check` the same value exactly where they take the
same branch. -/
theorem returnsAfter_phase_iff (htimer : initializeTimer delayFreq = some timer)
    (hq : 2 ≤ 84000000 / ((timer.prescaler.toNat + 1) * delayFreq.toNat))
    (hpast : past.toNat ≤ timer.period.toNat) (hpast' : past'.toNat ≤ timer.period.toNat)
    (helapsed : elapsed ≤ timer.period.toNat) :
    ((∃ finish, ReturnsAfter timer delayFreq past elapsed finish ∧
        ReturnsAfter timer delayFreq past' elapsed finish) ↔
      84000000 / ((timer.prescaler.toNat + 1) * delayFreq.toNat) ≤ elapsed ∨
        (past.toNat + 84000000 / ((timer.prescaler.toNat + 1) * delayFreq.toNat) ≤
            timer.period.toNat + 1 ↔
          past'.toNat + 84000000 / ((timer.prescaler.toNat + 1) * delayFreq.toNat) ≤
            timer.period.toNat + 1)) ∧
    (elapsedCheck timer.period past elapsed = elapsedCheck timer.period past' elapsed ↔
      (past.toNat + elapsed ≤ timer.period.toNat ↔
        past'.toNat + elapsed ≤ timer.period.toNat)) := by
  refine ⟨?_, elapsedCheck_eq_iff hpast hpast' helapsed⟩
  simp only [returnsAfter_iff htimer hq hpast helapsed,
    returnsAfter_iff htimer hq hpast' helapsed, exists_eq_left, dueTick]
  generalize 84000000 / ((timer.prescaler.toNat + 1) * delayFreq.toNat) = q at hq ⊢
  split <;> split <;> omega

/-- In the setting of `main`, from the start of a cycle and from its last tick. -/
theorem returnsAfter_phase_iff_main :
    ((∃ finish, ReturnsAfter mainTimer 50#32 0#32 0 finish ∧
        ReturnsAfter mainTimer 50#32 197646#32 0 finish) ↔
      84000000 / ((mainTimer.prescaler.toNat + 1) * (50#32).toNat) ≤ 0 ∨
        ((0#32).toNat + 84000000 / ((mainTimer.prescaler.toNat + 1) * (50#32).toNat) ≤
            mainTimer.period.toNat + 1 ↔
          (197646#32).toNat + 84000000 / ((mainTimer.prescaler.toNat + 1) * (50#32).toNat) ≤
            mainTimer.period.toNat + 1)) ∧
    (elapsedCheck mainTimer.period 0#32 0 = elapsedCheck mainTimer.period 197646#32 0 ↔
      ((0#32).toNat + 0 ≤ mainTimer.period.toNat ↔
        (197646#32).toNat + 0 ≤ mainTimer.period.toNat)) :=
  returnsAfter_phase_iff initializeTimer_main (by decide) (by decide) (by decide) (by decide)

/-- At 50 Hz a wait from the start of a cycle takes 98822 ticks, and one from its last tick
takes 98823. -/
theorem returnsAfter_phase_main :
    ReturnsAfter mainTimer 50#32 0#32 0 98822 ∧ ReturnsAfter mainTimer 50#32 197646#32 0 98823 ∧
    ¬ ∃ finish, ReturnsAfter mainTimer 50#32 0#32 0 finish ∧
      ReturnsAfter mainTimer 50#32 197646#32 0 finish := by
  have hq : 2 ≤ 84000000 / ((mainTimer.prescaler.toNat + 1) * (50#32).toNat) := by decide
  have hearly : ∀ finish, ReturnsAfter mainTimer 50#32 0#32 0 finish ↔ finish = 98822 :=
    fun _ => returnsAfter_iff initializeTimer_main hq (by decide) (by decide)
  have hlate : ∀ finish, ReturnsAfter mainTimer 50#32 197646#32 0 finish ↔ finish = 98823 :=
    fun _ => returnsAfter_iff initializeTimer_main hq (by decide) (by decide)
  refine ⟨(hearly _).mpr rfl, (hlate _).mpr rfl, fun h => ?_⟩
  obtain ⟨finish, hfinish, hfinish'⟩ := h
  have h98822 := (hearly finish).mp hfinish
  have h98823 := (hlate finish).mp hfinish'
  omega

end

end ImuFirmware
