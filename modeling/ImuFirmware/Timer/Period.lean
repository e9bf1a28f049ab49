/-
When the delay is cut short.

Two things end a wait early: what `check` happens to hold before the first pass, and
a wrap of the counter between the two reads of a pass, where the value read looks
like one far past the start.  In every other round the wait is as long as it should
be.
-/
import ImuFirmware.Timer.Delay

namespace ImuFirmware

/-! ## One pass -/

section

variable {period ticks : BitVec 32} {start read e e' : Nat}

/-- The ticks from the time `read` to the next wrap of the counter. -/
def untilWrap (period : BitVec 32) (start read : Nat) : Nat :=
  period.toNat + 1 - (counter period start read).toNat

/-- `check` after a pass whose reads come `e` and `e'` ticks after that of
`PastCountVal`. -/
abbrev checkAfter (period : BitVec 32) (start read e e' : Nat) : BitVec 32 :=
  nextCheck (counter period start) (counter period start read)
    (period - counter period start read) (read + e) (read + e')

theorem counter_beforeWrap (he : e ≤ period.toNat) (h : e < untilWrap period start read) :
    (counter period start (read + e)).toNat = (counter period start read).toNat + e := by
  unfold untilWrap at h
  rw [toNat_counter_add he, if_pos (by omega)]

theorem counter_afterWrap (he : e ≤ period.toNat) (h : untilWrap period start read ≤ e) :
    (counter period start (read + e)).toNat + untilWrap period start read = e := by
  have hle := counter_le period start read
  unfold untilWrap at h ⊢
  rw [toNat_counter_add he, if_neg (by omega)]
  omega

/-- The flag is set exactly after the wrap. -/
theorem rapFlag_iff (he : e ≤ period.toNat) :
    counter period start read > counter period start (read + e) ↔
      untilWrap period start read ≤ e := by
  have hle := counter_le period start read
  rw [gt_iff_lt, BitVec.lt_def]
  by_cases h : e < untilWrap period start read
  · rw [counter_beforeWrap he h]
    omega
  · have hafter := counter_afterWrap he (Nat.le_of_not_lt h)
    unfold untilWrap at h hafter ⊢
    omega

theorem checkAfter_beforeWrap (hle : e ≤ e') (he : e' ≤ period.toNat)
    (h : e' < untilWrap period start read) :
    (checkAfter period start read e e').toNat = e' := by
  have hflag : ¬ counter period start read > counter period start (read + e) := by
    rw [rapFlag_iff (by omega)]
    omega
  have hpast := (counter period start read).isLt
  have hvalue := counter_beforeWrap he h
  rw [checkAfter, nextCheck, if_neg hflag, BitVec.toNat_sub, hvalue]
  have hperiod := period.isLt
  omega

theorem checkAfter_afterWrap (hle : e ≤ e') (he : e' ≤ period.toNat)
    (h : untilWrap period start read ≤ e) :
    (checkAfter period start read e e').toNat + 1 = e' := by
  have hflag : counter period start read > counter period start (read + e) := by
    rw [rapFlag_iff (by omega)]
    exact h
  have hpast := counter_le period start read
  have hperiod := period.isLt
  have hwrapped : untilWrap period start read ≤ e' := by omega
  have hvalue := counter_afterWrap he hwrapped
  rw [checkAfter, nextCheck, if_pos hflag, BitVec.toNat_add, BitVec.toNat_sub]
  unfold untilWrap at h hvalue
  omega

/-- A wrap between the two reads makes `check` look like nearly a full turn of 2^32. -/
theorem checkAfter_straddling (he : e' ≤ period.toNat)
    (h : e < untilWrap period start read) (h' : untilWrap period start read ≤ e') :
    (checkAfter period start read e e').toNat + period.toNat + 1 = 2 ^ 32 + e' := by
  have hflag : ¬ counter period start read > counter period start (read + e) := by
    rw [rapFlag_iff (by omega)]
    omega
  have hpast := counter_le period start read
  have hperiod := period.isLt
  have hvalue := counter_afterWrap he h'
  rw [checkAfter, nextCheck, if_neg hflag, BitVec.toNat_sub]
  unfold untilWrap at h h' hvalue
  omega

/-- The wrap falls between the two reads of a pass, before `ticks` ticks are over. -/
def Straddles (period ticks : BitVec 32) (start read : Nat) (reads : Nat × Nat) : Prop :=
  reads.1 < read + untilWrap period start read ∧
    read + untilWrap period start read ≤ reads.2 ∧ reads.2 < read + ticks.toNat

theorem straddles_add_iff :
    Straddles period ticks start read (read + e, read + e') ↔
      e < untilWrap period start read ∧ untilWrap period start read ≤ e' ∧ e' < ticks.toNat := by
  unfold Straddles
  omega

/-- How long the wait may be: it fits in one cycle and is far from 2^32. -/
structure Short (period ticks : BitVec 32) : Prop where
  fits : ticks.toNat ≤ period.toNat
  far : period.toNat + ticks.toNat < 2 ^ 32

/-- The wait goes on after a pass that ends too early, unless the wrap fell into it. -/
theorem checkAfter_lt_iff (hshort : Short period ticks) (hle : e ≤ e')
    (he : e' < ticks.toNat) :
    checkAfter period start read e e' < ticks ↔
      ¬ Straddles period ticks start read (read + e, read + e') := by
  rw [straddles_add_iff]
  have hfits := hshort.fits
  have hfar := hshort.far
  rw [BitVec.lt_def]
  by_cases hvalue : e' < untilWrap period start read
  · rw [checkAfter_beforeWrap hle (by omega) hvalue]
    omega
  · by_cases hflag : e < untilWrap period start read
    · have hcheck := checkAfter_straddling (by omega) hflag (Nat.le_of_not_lt hvalue)
      omega
    · have hcheck := checkAfter_afterWrap hle (by omega) (Nat.le_of_not_lt hflag)
      omega

end

/-! ## One wait -/

/-- The times of the two reads of each pass, from time `now` on. -/
def readTimes : List Pass → Nat → List (Nat × Nat)
  | [], _ => []
  | pass :: passes, now =>
      (now + pass.before, now + pass.before + pass.between) ::
        readTimes passes (now + pass.before + pass.between)

variable {period ticks check : BitVec 32} {start read now finish : Nat} {passes : List Pass}

/-- A wait that passes its first test lasts long enough exactly when no pass straddles
the wrap early. -/
theorem ensureLoop_period_iff (hshort : Short period ticks) (hnow : read ≤ now)
    (hcheck : check < ticks)
    (h : ensureLoop (counter period start) (counter period start read)
      (period - counter period start read) ticks passes check now = some finish) :
    ticks.toNat ≤ finish - read ↔
      ∀ reads ∈ readTimes passes now, ¬ Straddles period ticks start read reads := by
  induction passes generalizing check now with
  | nil =>
      rw [ensureLoop, if_pos hcheck] at h
      exact nomatch h
  | cons pass passes ih =>
      rw [ensureLoop, if_pos hcheck] at h
      obtain ⟨e, he⟩ : ∃ e, now + pass.before = read + e := Nat.exists_eq_add_of_le (by omega)
      obtain ⟨e', he'⟩ : ∃ e', now + pass.before + pass.between = read + e' :=
        Nat.exists_eq_add_of_le (by omega)
      have hle : e ≤ e' := by omega
      dsimp only at h
      rw [readTimes, List.forall_mem_cons]
      rw [he', he] at h ⊢
      by_cases hnext : checkAfter period start read e e' < ticks
      · -- the wait goes on, so this pass cannot have been cut short
        have hstraddle : ¬ Straddles period ticks start read (read + e, read + e') := by
          intro hs
          exact (checkAfter_lt_iff hshort hle (straddles_add_iff.mp hs).2.2).mp hnext hs
        rw [ih (by omega) hnext h]
        exact ⟨fun hall => ⟨hstraddle, hall⟩, fun hall => hall.2⟩
      · cases passes with
        | cons _ _ =>
            rw [ensureLoop, if_neg hnext] at h
            exact nomatch h
        | nil =>
            rw [ensureLoop, if_neg hnext] at h
            obtain rfl := Option.some.inj h
            constructor
            · intro hperiod
              refine ⟨fun hs => ?_, nofun⟩
              have hearly := (straddles_add_iff.mp hs).2.2
              omega
            · intro hall
              by_contra hshortened
              exact hnext ((checkAfter_lt_iff hshort hle (by omega)).mpr hall.1)

/-! ## Every round -/

variable {timer : TimeBase} {delayFreq : BitVec 32} {round : Round}

/-- What a round must be spared: a `check` that ends the wait before it has begun, and a
wrap between two reads. -/
structure Undisturbed (timer : TimeBase) (start : Nat) (delayFreq : BitVec 32) (read : Nat)
    (round : Round) : Prop where
  entered : round.check < delayTicks timer delayFreq ∨
    (delayTicks timer delayFreq).toNat ≤ round.body
  passes : ∀ reads ∈ readTimes round.passes (read + round.body),
    ¬ Straddles timer.period (delayTicks timer delayFreq) start read reads

theorem ensureSetRuntime_period_iff (hshort : Short timer.period (delayTicks timer delayFreq))
    (h : ensureSetRuntime timer (counter timer.period start) (counter timer.period start read)
      delayFreq round.check round.passes (read + round.body) = some finish) :
    (delayTicks timer delayFreq).toNat ≤ finish - read ↔
      Undisturbed timer start delayFreq read round := by
  unfold ensureSetRuntime at h
  by_cases hcheck : round.check < delayTicks timer delayFreq
  · rw [ensureLoop_period_iff hshort (Nat.le_add_right ..) hcheck h]
    exact ⟨fun hall => ⟨Or.inl hcheck, hall⟩, fun hround => hround.passes⟩
  · cases hpasses : round.passes with
    | cons pass passes =>
        rw [hpasses, ensureLoop, if_neg hcheck] at h
        exact nomatch h
    | nil =>
        rw [hpasses, ensureLoop, if_neg hcheck] at h
        obtain rfl := Option.some.inj h
        rw [Nat.add_sub_cancel_left]
        constructor
        · intro hbody
          refine ⟨Or.inr hbody, ?_⟩
          rw [hpasses]
          exact nofun
        · intro hround
          exact hround.entered.resolve_left hcheck

/-- The wait is half a cycle of the counter, short of a tick. -/
theorem initializeTimer_short (htimer : initializeTimer delayFreq = some timer)
    (hq : 1 ≤ 84000000 / ((timer.prescaler.toNat + 1) * delayFreq.toNat)) :
    Short timer.period (delayTicks timer delayFreq) ∧ (delayTicks timer delayFreq).toNat =
      84000000 / ((timer.prescaler.toNat + 1) * delayFreq.toNat) - 1 := by
  have hticks := toNat_delayTicks hq
  have htwice := initializeTimer_twice htimer hq
  have hperiod := initializeTimer_period_lt htimer hq
  refine ⟨⟨?_, ?_⟩, by omega⟩
  · omega
  · omega

/-- In every run of the sampling loop a round lasts as long as it should exactly when it
is undisturbed. -/
theorem mainLoop_period_iff {rounds : List Round} {times : List (Nat × Nat)}
    (htimer : initializeTimer delayFreq = some timer)
    (hq : 1 ≤ 84000000 / ((timer.prescaler.toNat + 1) * delayFreq.toNat))
    (hrun : mainLoop timer start delayFreq rounds now = some times) :
    List.Forall₂ (fun time round =>
      84000000 / ((timer.prescaler.toNat + 1) * delayFreq.toNat) - 1 ≤ time.2 - time.1 ↔
        Undisturbed timer start delayFreq time.1 round) times rounds := by
  obtain ⟨hshort, hticks⟩ := initializeTimer_short htimer hq
  induction rounds generalizing now times with
  | nil =>
      obtain rfl := Option.some.inj hrun
      exact .nil
  | cons round rounds ih =>
      obtain ⟨finish, hfinish, hnext⟩ := Option.bind_eq_some_iff.mp hrun
      obtain ⟨rest, hrest, htimes⟩ := Option.bind_eq_some_iff.mp hnext
      obtain rfl := Option.some.inj htimes
      refine .cons ?_ (ih hrest)
      rw [← hticks]
      exact ensureSetRuntime_period_iff hshort hfinish

/-- The setting of `main`. -/
def mainTimer : TimeBase := ⟨16#16, 197646#32⟩

theorem initializeTimer_main : initializeTimer 50#32 = some mainTimer := by decide +kernel

/-- A round that waits, and one that finds `check` large. -/
theorem mainLoop_period_iff_main :
    List.Forall₂ (fun time round =>
      84000000 / ((mainTimer.prescaler.toNat + 1) * (50#32).toNat) - 1 ≤ time.2 - time.1 ↔
        Undisturbed mainTimer 0 50#32 time.1 round) [(7, 98830), (98831, 98840)]
      [⟨7, 20, 0#32, [⟨3, 5⟩, ⟨98790, 5⟩]⟩, ⟨1, 9, 0xFFFFFFFF#32, []⟩] :=
  have hrun : mainLoop mainTimer 0 50#32
      [⟨7, 20, 0#32, [⟨3, 5⟩, ⟨98790, 5⟩]⟩, ⟨1, 9, 0xFFFFFFFF#32, []⟩] 0 =
        some [(7, 98830), (98831, 98840)] := by
    decide +kernel
  mainLoop_period_iff initializeTimer_main (by decide) hrun

/-- At 50 Hz the wait should be 98822 ticks.  It is none at all where `check` holds its
largest value, and 15 where the counter wraps between the two reads. -/
theorem mainLoop_cutShort :
    initializeTimer 50#32 = some mainTimer ∧ (delayTicks mainTimer 50#32).toNat = 98822 ∧
    mainLoop mainTimer 0 50#32 [⟨0, 0, 0xFFFFFFFF#32, []⟩] 0 = some [(0, 0)] ∧
    mainLoop mainTimer 197636 50#32 [⟨0, 5, 0#32, [⟨0, 10⟩]⟩] 0 = some [(0, 15)] := by
  refine ⟨initializeTimer_main, by decide, by decide +kernel, by decide +kernel⟩

end ImuFirmware
