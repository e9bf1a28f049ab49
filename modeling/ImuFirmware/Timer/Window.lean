/-
The wait does not miss its exit.

`check` jumps wherever the counter wraps, but whatever the two reads of a pass were, a
wait that goes on has its value read within one delay of the counter standing at
`PastCountVal`.  A cycle has room for two delays, so polls that are no further apart
than one delay cannot step over the half in which the wait ends, and until then each of
them brings it nearer.
-/
import ImuFirmware.Timer.Period

namespace ImuFirmware

/-! ## Where the counter stands -/

section

variable {period ticks past check : BitVec 32} {start t now d q flagged valued : Nat}

/-- The ticks since the counter last stood at `past`. -/
def phase (period past : BitVec 32) (start t : Nat) : Nat :=
  (start + t + (period.toNat + 1 - past.toNat)) % (period.toNat + 1)

theorem phase_eq (period past : BitVec 32) (start t : Nat) :
    phase period past start t =
      ((counter period start t).toNat + (period.toNat + 1 - past.toNat)) %
        (period.toNat + 1) := by
  rw [toNat_counter, Nat.mod_add_mod]
  rfl

theorem phase_of_le (hpast : past.toNat ≤ period.toNat)
    (h : past.toNat ≤ (counter period start t).toNat) :
    phase period past start t = (counter period start t).toNat - past.toNat := by
  have hle := counter_le period start t
  have hsum : (counter period start t).toNat + (period.toNat + 1 - past.toNat) =
      (counter period start t).toNat - past.toNat + (period.toNat + 1) := by omega
  rw [phase_eq, hsum, Nat.add_mod_right]
  exact Nat.mod_eq_of_lt (by omega)

theorem phase_of_lt (hpast : past.toNat ≤ period.toNat)
    (h : (counter period start t).toNat < past.toNat) :
    phase period past start t =
      (counter period start t).toNat + (period.toNat + 1 - past.toNat) := by
  rw [phase_eq]
  exact Nat.mod_eq_of_lt (by omega)

theorem phase_add (h : phase period past start t + d ≤ period.toNat) :
    phase period past start (t + d) = phase period past start t + d := by
  have hsum : start + (t + d) + (period.toNat + 1 - past.toNat) =
      start + t + (period.toNat + 1 - past.toNat) + d := by omega
  have hmod : phase period past start (t + d) =
      (phase period past start t + d) % (period.toNat + 1) := by
    rw [phase, phase, hsum, Nat.mod_add_mod]
  rw [hmod]
  exact Nat.mod_eq_of_lt (Nat.lt_succ_of_le h)

/-- What a delay of `q` ticks needs of the period: two of them fit into a cycle, and a
difference of two counter values is never taken for a small one. -/
structure Roomy (period ticks : BitVec 32) (q : Nat) : Prop where
  delay : ticks.toNat + 1 = q
  twice : 2 * q ≤ period.toNat + 1
  far : 2 * period.toNat < 2 ^ 32

/-- A wait that goes on is within one delay of the start, before or after a wrap, and
whenever the flag was read. -/
theorem phase_lt_of_nextCheck_lt (hroomy : Roomy period ticks q)
    (hpast : past.toNat ≤ period.toNat)
    (h : nextCheck (counter period start) past (period - past) flagged valued < ticks) :
    phase period past start valued < q := by
  have hdelay := hroomy.delay
  have htwice := hroomy.twice
  have hfar := hroomy.far
  have hle := counter_le period start valued
  rw [nextCheck, BitVec.lt_def] at h
  split at h
  case isTrue hflag =>
    have hcheck : (period - past + counter period start valued).toNat =
        period.toNat - past.toNat + (counter period start valued).toNat := by
      rw [BitVec.toNat_add, BitVec.toNat_sub_of_le hpast]
      exact Nat.mod_eq_of_lt (by omega)
    rw [hcheck] at h
    by_cases hvalue : past.toNat ≤ (counter period start valued).toNat
    · omega
    · rw [phase_of_lt hpast (Nat.lt_of_not_le hvalue)]
      omega
  case isFalse hflag =>
    by_cases hvalue : past.toNat ≤ (counter period start valued).toNat
    · rw [BitVec.toNat_sub_of_le hvalue] at h
      rw [phase_of_le hpast hvalue]
      omega
    · -- the difference has wrapped and is far above the threshold
      have hpast' := past.isLt
      rw [BitVec.toNat_sub] at h
      omega

/-! ## Polling -/

/-- The ticks from the value read before a pass to its own. -/
def Pass.span (pass : Pass) : Nat := pass.before + pass.between

def firstPasses (schedule : Nat → Pass) : Nat → List Pass
  | 0 => []
  | n + 1 => schedule 0 :: firstPasses (fun k => schedule (k + 1)) n

/-- The value reads of consecutive passes are at least 1 and at most `q` ticks apart. -/
def Polled (q : Nat) (schedule : Nat → Pass) : Prop :=
  ∀ k, 1 ≤ (schedule (k + 1)).span ∧ (schedule (k + 1)).span ≤ q

/-- The wait loop, polled by `schedule` from time `now` on, ends at `finish`. -/
def LoopEnds (count : Nat → BitVec 32) (past rapAddition ticks : BitVec 32)
    (schedule : Nat → Pass) (check : BitVec 32) (now finish : Nat) : Prop :=
  ∃ n, ensureLoop count past rapAddition ticks (firstPasses schedule n) check now = some finish

theorem loopEnds_of_not_lt {count : Nat → BitVec 32} {rapAddition : BitVec 32}
    {schedule : Nat → Pass} {finish : Nat} (h : ¬ check < ticks) :
    LoopEnds count past rapAddition ticks schedule check now finish ↔ finish = now := by
  constructor
  · intro hends
    obtain ⟨n, hrun⟩ := hends
    cases n with
    | zero =>
        rw [firstPasses, ensureLoop, if_neg h] at hrun
        exact (Option.some.inj hrun).symm
    | succ n =>
        rw [firstPasses, ensureLoop, if_neg h] at hrun
        cases hrun
  · intro hfinish
    exact ⟨0, by rw [firstPasses, ensureLoop, if_neg h, hfinish]⟩

/-- A wait that goes on makes the next pass of its schedule. -/
theorem loopEnds_of_lt {count : Nat → BitVec 32} {rapAddition : BitVec 32}
    {schedule : Nat → Pass} {finish : Nat} (h : check < ticks) :
    LoopEnds count past rapAddition ticks schedule check now finish ↔
      LoopEnds count past rapAddition ticks (fun k => schedule (k + 1))
        (nextCheck count past rapAddition (now + (schedule 0).before) (now + (schedule 0).span))
        (now + (schedule 0).span) finish := by
  have hvalued : now + (schedule 0).before + (schedule 0).between = now + (schedule 0).span :=
    Nat.add_assoc ..
  have hpass : ∀ n, ensureLoop count past rapAddition ticks (firstPasses schedule (n + 1)) check
      now = ensureLoop count past rapAddition ticks
        (firstPasses (fun k => schedule (k + 1)) n)
        (nextCheck count past rapAddition (now + (schedule 0).before) (now + (schedule 0).span))
        (now + (schedule 0).span) := by
    intro n
    rw [firstPasses, ensureLoop, if_pos h]
    dsimp only
    rw [hvalued]
  constructor
  · intro hends
    obtain ⟨n, hrun⟩ := hends
    cases n with
    | zero =>
        rw [firstPasses, ensureLoop, if_pos h] at hrun
        cases hrun
    | succ n => exact ⟨n, (hpass n).symm.trans hrun⟩
  · intro hends
    obtain ⟨n, hrun⟩ := hends
    exact ⟨n + 1, (hpass n).trans hrun⟩

/-- From a value read on, where the wait that goes on is within `room` ticks of the end of
its delay. -/
theorem exists_loopEnds {room : Nat} {schedule : Nat → Pass}
    (hroomy : Roomy period ticks q) (hpast : past.toNat ≤ period.toNat)
    (hpolled : ∀ k, 1 ≤ (schedule k).span ∧ (schedule k).span ≤ q)
    (hgoing : check < ticks → phase period past start now < q ∧
      q ≤ phase period past start now + room) :
    ∃ finish, LoopEnds (counter period start) past (period - past) ticks schedule check now
        finish ∧ finish ≤ now + (2 * q - phase period past start now) := by
  induction room generalizing schedule check now with
  | zero =>
      have hdone : ¬ check < ticks := by
        intro hcheck
        have := hgoing hcheck
        omega
      exact ⟨now, (loopEnds_of_not_lt hdone).mpr rfl, Nat.le_add_right ..⟩
  | succ room ih =>
      by_cases hcheck : check < ticks
      · obtain ⟨hphase, hroom⟩ := hgoing hcheck
        obtain ⟨hmoved, hspan⟩ := hpolled 0
        have htwice := hroomy.twice
        have hnext : phase period past start (now + (schedule 0).span) =
            phase period past start now + (schedule 0).span := phase_add (by omega)
        have hgoing' : nextCheck (counter period start) past (period - past)
            (now + (schedule 0).before) (now + (schedule 0).span) < ticks →
              phase period past start (now + (schedule 0).span) < q ∧
                q ≤ phase period past start (now + (schedule 0).span) + room := by
          intro hcheck'
          have hlt := phase_lt_of_nextCheck_lt hroomy hpast hcheck'
          omega
        obtain ⟨finish, hends, hfinish⟩ := ih (fun k => hpolled (k + 1)) hgoing'
        exact ⟨finish, (loopEnds_of_lt hcheck).mpr hends, by omega⟩
      · exact ⟨now, (loopEnds_of_not_lt hcheck).mpr rfl, Nat.le_add_right ..⟩

end

/-! ## Every frequency -/

/-- `EnsureSetRuntime`, polled by `schedule` from time `now` on, returns at `finish`. -/
def ReturnsAt (timer : TimeBase) (count : Nat → BitVec 32)
    (pastCountVal delayFreq check : BitVec 32) (schedule : Nat → Pass) (now finish : Nat) : Prop :=
  ∃ n, ensureSetRuntime timer count pastCountVal delayFreq check (firstPasses schedule n) now =
    some finish

section

variable {delayFreq pastCountVal check : BitVec 32} {timer : TimeBase} {start now finish : Nat}
  {count : Nat → BitVec 32} {schedule : Nat → Pass}

theorem returnsAt_iff :
    ReturnsAt timer count pastCountVal delayFreq check schedule now finish ↔
      LoopEnds count pastCountVal (timer.period - pastCountVal) (delayTicks timer delayFreq)
        schedule check now finish :=
  Iff.rfl

theorem initializeTimer_roomy (htimer : initializeTimer delayFreq = some timer)
    (hq : 1 ≤ 84000000 / ((timer.prescaler.toNat + 1) * delayFreq.toNat)) :
    Roomy timer.period (delayTicks timer delayFreq)
      (84000000 / ((timer.prescaler.toNat + 1) * delayFreq.toNat)) := by
  have hperiod := initializeTimer_period_lt htimer hq
  exact ⟨toNat_delayTicks hq, initializeTimer_twice htimer hq, by omega⟩

/-- The wait returns, within a cycle and a delay of its first value read, whatever the
counter and `check` were on entry. -/
theorem ensureSetRuntime_returns (htimer : initializeTimer delayFreq = some timer)
    (hq : 1 ≤ 84000000 / ((timer.prescaler.toNat + 1) * delayFreq.toNat))
    (hpast : pastCountVal.toNat ≤ timer.period.toNat)
    (hpolled : Polled (84000000 / ((timer.prescaler.toNat + 1) * delayFreq.toNat)) schedule) :
    ∃ finish, ReturnsAt timer (counter timer.period start) pastCountVal delayFreq check schedule
        now finish ∧
      finish ≤ now + (schedule 0).span + (timer.period.toNat + 1 +
        84000000 / ((timer.prescaler.toNat + 1) * delayFreq.toNat)) := by
  have hroomy := initializeTimer_roomy htimer hq
  generalize 84000000 / ((timer.prescaler.toNat + 1) * delayFreq.toNat) = q at *
  by_cases hcheck : check < delayTicks timer delayFreq
  · have hgoing : nextCheck (counter timer.period start) pastCountVal
        (timer.period - pastCountVal) (now + (schedule 0).before) (now + (schedule 0).span) <
          delayTicks timer delayFreq →
        phase timer.period pastCountVal start (now + (schedule 0).span) < q ∧
          q ≤ phase timer.period pastCountVal start (now + (schedule 0).span) + q :=
      fun h => ⟨phase_lt_of_nextCheck_lt hroomy hpast h, Nat.le_add_left ..⟩
    obtain ⟨finish, hends, hfinish⟩ := exists_loopEnds hroomy hpast hpolled hgoing
    have htwice := hroomy.twice
    exact ⟨finish, returnsAt_iff.mpr ((loopEnds_of_lt hcheck).mpr hends), by omega⟩
  · exact ⟨now, returnsAt_iff.mpr ((loopEnds_of_not_lt hcheck).mpr rfl), by omega⟩

/-- In the setting of `main`, polled every 50000 ticks from the last tick before a wrap. -/
theorem ensureSetRuntime_returns_main :
    ∃ finish, ReturnsAt mainTimer (counter mainTimer.period 197646) 197646#32 50#32 0#32
        (fun _ => ⟨20000, 30000⟩) 0 finish ∧
      finish ≤ 0 + 50000 + (mainTimer.period.toNat + 1 +
        84000000 / ((mainTimer.prescaler.toNat + 1) * (50#32).toNat)) :=
  ensureSetRuntime_returns initializeTimer_main (by decide) (by decide) fun _ => by decide

end

end ImuFirmware
