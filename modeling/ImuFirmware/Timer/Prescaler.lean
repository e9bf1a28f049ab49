/-
What the search of `InitializeTimer` finds.

The counter should divide the clocks of two periods evenly, but the test of the loop
asks for the remainder 1.  So the search comes to the smallest prime factor of one
less than the clocks, or to 65536 where that factor is larger or there is none, and no
frequency gives an even division.  Above 1281 Hz, where one less than the clocks is a
prime, the timer runs so slowly that the delay comes to no tick of it.
-/
import Mathlib.Data.Nat.Prime.Basic
import ImuFirmware.Timer.Period

namespace ImuFirmware

/-! ## The search -/

/-- Where the search among `n` clocks is to stop: at the first prescaler below 65535 that
leaves the remainder 1, or else at 65535. -/
structure Searched (n k : Nat) : Prop where
  passed : ∀ j, j < k → n % (j + 1) ≠ 1
  stopped : k = 65535 ∨ k < 65535 ∧ n % (k + 1) = 1

/-- The values that `TIM_Prescaler` holds in the search, for at most `fuel` rounds. -/
def heldPrescalers (delayFreq : BitVec 32) : Nat → BitVec 16 → List (BitVec 16)
  | 0, prescaler => [prescaler]
  | fuel + 1, prescaler =>
      if 168000000#32 / delayFreq % (prescaler.setWidth 32 + 1#32) - 1#32 = 0#32 then
        [prescaler]
      else
        let next := prescaler + 1#16
        if 65535#16 ≤ next then [prescaler, next]
        else prescaler :: heldPrescalers delayFreq fuel next

section

variable {delayFreq : BitVec 32} {fuel : Nat} {prescaler found : BitVec 16} {timer : TimeBase}

/-- The test of the loop. -/
theorem remainder_iff (delayFreq : BitVec 32) (prescaler : BitVec 16) :
    168000000#32 / delayFreq % (prescaler.setWidth 32 + 1#32) - 1#32 = 0#32 ↔
      168000000 / delayFreq.toNat % (prescaler.toNat + 1) = 1 := by
  rw [BitVec.sub_eq_iff_eq_add, ← BitVec.toNat_inj, BitVec.toNat_umod, BitVec.toNat_udiv,
    toNat_setWidth_succ]
  rfl

/-- A round of the search: it breaks off at this prescaler, or at the next one if that is
65535, or goes on there. -/
theorem searchPrescaler_round (hlow : prescaler.toNat < 65535)
    (h : searchPrescaler delayFreq (fuel + 1) prescaler = some found) :
    (168000000 / delayFreq.toNat % (prescaler.toNat + 1) = 1 ∧ found = prescaler) ∨
    (168000000 / delayFreq.toNat % (prescaler.toNat + 1) ≠ 1 ∧
      prescaler.toNat + 1 = 65535 ∧ found = prescaler + 1#16) ∨
    (168000000 / delayFreq.toNat % (prescaler.toNat + 1) ≠ 1 ∧
      prescaler.toNat + 1 < 65535 ∧
      searchPrescaler delayFreq fuel (prescaler + 1#16) = some found) := by
  rw [searchPrescaler] at h
  by_cases hrem : 168000000 / delayFreq.toNat % (prescaler.toNat + 1) = 1
  · rw [if_pos ((remainder_iff ..).mpr hrem)] at h
    exact Or.inl ⟨hrem, (Option.some.inj h).symm⟩
  · rw [if_neg (mt (remainder_iff ..).mp hrem)] at h
    dsimp only at h
    by_cases hlast : prescaler.toNat + 1 = 65535
    · rw [if_pos ((next_ge_iff hlow).mpr hlast)] at h
      exact Or.inr (Or.inl ⟨hrem, hlast, (Option.some.inj h).symm⟩)
    · rw [if_neg (mt (next_ge_iff hlow).mp hlast)] at h
      exact Or.inr (Or.inr ⟨hrem, by omega, h⟩)

/-- The search from any prescaler on. -/
theorem searchPrescaler_searched (hlow : prescaler.toNat < 65535)
    (hpassed : ∀ j, j < prescaler.toNat → 168000000 / delayFreq.toNat % (j + 1) ≠ 1)
    (h : searchPrescaler delayFreq fuel prescaler = some found) :
    Searched (168000000 / delayFreq.toNat) found.toNat := by
  induction fuel generalizing prescaler with
  | zero => exact nomatch h
  | succ fuel ih =>
      have hnext := toNat_next hlow
      have hpassed' : 168000000 / delayFreq.toNat % (prescaler.toNat + 1) ≠ 1 →
          ∀ j, j < (prescaler + 1#16).toNat → 168000000 / delayFreq.toNat % (j + 1) ≠ 1 := by
        intro hrem j hj
        by_cases hj' : j = prescaler.toNat
        · rw [hj']
          exact hrem
        · exact hpassed j (by omega)
      rcases searchPrescaler_round hlow h with ⟨hrem, rfl⟩ | ⟨hrem, hlast, rfl⟩ |
        ⟨hrem, hlow', hrest⟩
      · exact ⟨hpassed, Or.inr ⟨hlow, hrem⟩⟩
      · exact ⟨hpassed' hrem, Or.inl (hnext.trans hlast)⟩
      · exact ih (by omega) (hpassed' hrem) hrest

/-- The field counts up by one, without a wrap. -/
theorem heldPrescalers_eq (hlow : prescaler.toNat < 65535)
    (h : searchPrescaler delayFreq fuel prescaler = some found) :
    prescaler.toNat ≤ found.toNat ∧ (heldPrescalers delayFreq fuel prescaler).map BitVec.toNat =
      List.range' prescaler.toNat (found.toNat + 1 - prescaler.toNat) := by
  induction fuel generalizing prescaler with
  | zero => exact nomatch h
  | succ fuel ih =>
      have hnext := toNat_next hlow
      rw [heldPrescalers]
      rcases searchPrescaler_round hlow h with ⟨hrem, rfl⟩ | ⟨hrem, hlast, rfl⟩ |
        ⟨hrem, hlow', hrest⟩
      · rw [if_pos ((remainder_iff ..).mpr hrem), Nat.add_sub_cancel_left]
        exact ⟨Nat.le_refl _, rfl⟩
      · have hlen : prescaler.toNat + 1 + 1 - prescaler.toNat = 2 := by omega
        rw [if_neg (mt (remainder_iff ..).mp hrem)]
        dsimp only
        rw [if_pos ((next_ge_iff hlow).mpr hlast), List.map_cons, List.map_singleton, hnext, hlen]
        exact ⟨Nat.le_succ _, rfl⟩
      · have hnotlast : ¬ 65535#16 ≤ prescaler + 1#16 :=
          mt (next_ge_iff hlow).mp (Nat.ne_of_lt hlow')
        obtain ⟨hle, hheld⟩ := ih (by omega) hrest
        have hlen : found.toNat + 1 - prescaler.toNat =
            found.toNat + 1 - (prescaler + 1#16).toNat + 1 := by omega
        rw [if_neg (mt (remainder_iff ..).mp hrem)]
        dsimp only
        rw [if_neg hnotlast, List.map_cons, hheld, hlen, List.range'_succ, hnext]
        exact ⟨by omega, rfl⟩

theorem initializeTimer_searched (htimer : initializeTimer delayFreq = some timer) :
    Searched (168000000 / delayFreq.toNat) timer.prescaler.toNat := by
  refine searchPrescaler_searched (by decide) ?_ (initializeTimer_eq_some htimer).1
  intro j hj
  exact absurd hj (Nat.not_lt_zero j)

theorem initializeTimer_held (htimer : initializeTimer delayFreq = some timer) :
    (heldPrescalers delayFreq 65536 0#16).map BitVec.toNat =
      List.range (timer.prescaler.toNat + 1) := by
  obtain ⟨-, hheld⟩ := heldPrescalers_eq (by decide) (initializeTimer_eq_some htimer).1
  rw [hheld, List.range_eq_range']
  rfl

end

/-! ## The smallest prime factor -/

section

variable {n k m : Nat}

theorem remainder_one_iff (hn : 2 ≤ n) : n % m = 1 ↔ 2 ≤ m ∧ m ∣ n - 1 := by
  constructor
  · intro hrem
    have hdiv := Nat.div_add_mod n m
    rw [hrem] at hdiv
    refine ⟨?_, n / m, by omega⟩
    by_contra hm
    obtain rfl | rfl : m = 0 ∨ m = 1 := by omega
    · rw [Nat.mod_zero] at hrem
      omega
    · rw [Nat.mod_one] at hrem
      exact Nat.zero_ne_one hrem
  · intro hm
    obtain ⟨c, hc⟩ := hm.2
    have hsum : n = 1 + m * c := by omega
    rw [hsum, Nat.add_mul_mod_self_left]
    exact Nat.mod_eq_of_lt hm.1

/-- Two clocks leave the remainder 1 nowhere. -/
theorem Searched.of_two (h : Searched 2 k) : k = 65535 := by
  rcases h.stopped with hstop | ⟨-, hrem⟩
  · exact hstop
  · obtain ⟨htwo, hdvd⟩ := (remainder_one_iff (Nat.le_refl 2)).mp hrem
    have hone := Nat.le_of_dvd Nat.one_pos hdvd
    omega

/-- The search stops at the smallest prime factor of one less than the clocks. -/
theorem Searched.eq_minFac (h : Searched n k) (hn : 3 ≤ n) :
    k + 1 = min (n - 1).minFac 65536 := by
  have hfactor : ∀ j, j + 1 = (n - 1).minFac → n % (j + 1) = 1 := by
    intro j hj
    have hprime : (n - 1).minFac.Prime := Nat.minFac_prime (by omega)
    rw [remainder_one_iff (by omega), hj]
    exact ⟨hprime.two_le, Nat.minFac_dvd _⟩
  have hpos := Nat.minFac_pos (n - 1)
  rcases h.stopped with rfl | ⟨hlt, hrem⟩
  · by_contra hmin
    have hj : (n - 1).minFac - 1 + 1 = (n - 1).minFac := by omega
    exact h.passed _ (by omega) (hfactor _ hj)
  · obtain ⟨htwo, hdvd⟩ := (remainder_one_iff (by omega)).mp hrem
    have hle := Nat.minFac_le_of_dvd htwo hdvd
    have hnotless : ¬ (n - 1).minFac < k + 1 := by
      intro hless
      have hj : (n - 1).minFac - 1 + 1 = (n - 1).minFac := by omega
      exact h.passed _ (by omega) (hfactor _ hj)
    omega

/-- The divisor found is less than the clocks. -/
theorem Searched.lt_clocks (h : Searched n k) (hn : 3 ≤ n) : k + 1 < n := by
  have hle := Nat.minFac_le (n := n - 1) (by omega)
  rw [h.eq_minFac hn]
  omega

end

/-! ## Every frequency -/

section

variable {delayFreq : BitVec 32} {timer : TimeBase} {f : Nat}

theorem clocks_two_le (hlow : 1 ≤ f) (hhigh : f ≤ 84000000) : 2 ≤ 168000000 / f := by
  rw [Nat.le_div_iff_mul_le hlow]
  omega

theorem lt_clocks_mul (hlow : 1 ≤ f) : 168000000 < 168000000 / f * f + f := by
  have hdiv := Nat.div_add_mod' 168000000 f
  have hmod := Nat.mod_lt 168000000 hlow
  omega

/-- No number of clocks is a multiple of 65536. -/
theorem clocks_ne_mul (hlow : 1 ≤ f) (hhigh : f ≤ 84000000) (c : Nat) :
    168000000 / f ≠ 65536 * c := by
  intro hmul
  have htwo := clocks_two_le hlow hhigh
  have hle := Nat.div_mul_le_self 168000000 f
  have hlt := lt_clocks_mul hlow
  have hf : f ≤ c * f := Nat.le_mul_of_pos_left f (by omega)
  rw [hmul, Nat.mul_assoc] at hle hlt
  -- from here on `c * f` is at most 2563
  omega

theorem divisor_mul_lt {k : Nat} (h : Searched (168000000 / f) k) (hn : 3 ≤ 168000000 / f)
    (hlow : 1 ≤ f) : (k + 1) * f < 168000000 := by
  have hless := Nat.mul_lt_mul_of_pos_right (h.lt_clocks hn) hlow
  have hle := Nat.div_mul_le_self 168000000 f
  omega

/-- A prescaler that the loop breaks off at loses one clock in each cycle. -/
theorem initializeTimer_losesClock (htimer : initializeTimer delayFreq = some timer)
    (hlow : 1 ≤ delayFreq.toNat) (hn : 3 ≤ 168000000 / delayFreq.toNat)
    (hrem : 168000000 / delayFreq.toNat % (timer.prescaler.toNat + 1) = 1) :
    (timer.prescaler.toNat + 1) * (timer.period.toNat + 1) + 1 =
      168000000 / delayFreq.toNat := by
  have hlt := divisor_mul_lt (initializeTimer_searched htimer) hn hlow
  have hpos : 0 < (timer.prescaler.toNat + 1) * delayFreq.toNat :=
    Nat.mul_pos (Nat.succ_pos _) hlow
  have hq : 1 ≤ 168000000 / ((timer.prescaler.toNat + 1) * delayFreq.toNat) := by
    rw [Nat.le_div_iff_mul_le hpos]
    omega
  have hdiv := Nat.div_add_mod (168000000 / delayFreq.toNat) (timer.prescaler.toNat + 1)
  rw [hrem, Nat.div_div_eq_div_mul, Nat.mul_comm delayFreq.toNat] at hdiv
  rw [initializeTimer_period htimer hq]
  exact hdiv

/-- At no frequency does the prescaler divide the clocks of two periods evenly. -/
theorem initializeTimer_inexact (hlow : 1 ≤ delayFreq.toNat)
    (hhigh : delayFreq.toNat ≤ 84000000) :
    ∃ timer, initializeTimer delayFreq = some timer ∧
      (timer.prescaler.toNat + 1) * (timer.period.toNat + 1) ≠ 168000000 / delayFreq.toNat := by
  obtain ⟨timer, htimer⟩ := Option.isSome_iff_exists.mp (initializeTimer_isSome delayFreq)
  have hsearched := initializeTimer_searched htimer
  refine ⟨timer, htimer, ?_⟩
  rcases hsearched.stopped with hstop | ⟨hlt, hrem⟩
  · rw [hstop]
    exact (clocks_ne_mul hlow hhigh _).symm
  · have htwo := clocks_two_le hlow hhigh
    have hn : 3 ≤ 168000000 / delayFreq.toNat := by
      by_contra hless
      have hn : 168000000 / delayFreq.toNat = 2 := by omega
      rw [hn] at hsearched
      have hstop := hsearched.of_two
      omega
    have hlost := initializeTimer_losesClock htimer hlow hn hrem
    omega

theorem initializeTimer_inexact_main :
    ∃ timer, initializeTimer 50#32 = some timer ∧
      (timer.prescaler.toNat + 1) * (timer.period.toNat + 1) ≠ 168000000 / (50#32).toNat :=
  initializeTimer_inexact (by decide) (by decide)

/-- In the setting of `main` a cycle is 3359999 clocks and two periods are 3360000. -/
theorem mainTimer_inexact :
    initializeTimer 50#32 = some mainTimer ∧
      (mainTimer.prescaler.toNat + 1) * (mainTimer.period.toNat + 1) = 3359999 ∧
      168000000 / (50#32).toNat = 3360000 :=
  ⟨initializeTimer_main, by decide, by decide⟩

/-! ## Range -/

/-- The arithmetic of `InitializeTimer` and `EnsureSetRuntime` stays in range: the field
counts up without a wrap, the product is what it should be, no quotient is zero, and the
wait is over before the counter wraps. -/
structure InRange (delayFreq : BitVec 32) (timer : TimeBase) : Prop where
  held : (heldPrescalers delayFreq 65536 0#16).map BitVec.toNat =
    List.range (timer.prescaler.toNat + 1)
  product : (tickDivisor timer.prescaler delayFreq).toNat =
    (timer.prescaler.toNat + 1) * delayFreq.toNat
  nonzero : tickDivisor timer.prescaler delayFreq ≠ 0#32
  cycle : 1#32 ≤ 168000000#32 / tickDivisor timer.prescaler delayFreq
  wait : 1#32 ≤ 84000000#32 / tickDivisor timer.prescaler delayFreq
  reached : delayTicks timer delayFreq < timer.period

/-- The arithmetic is in range exactly where the divisor is at most half the clock. -/
theorem inRange_iff (htimer : initializeTimer delayFreq = some timer)
    (hlow : 1 ≤ delayFreq.toNat) :
    InRange delayFreq timer ↔
      (timer.prescaler.toNat + 1) * delayFreq.toNat ≤ 84000000 := by
  constructor
  · intro h
    have hwait : 1 ≤ (84000000#32 / tickDivisor timer.prescaler delayFreq).toNat := h.wait
    rw [BitVec.toNat_udiv, h.product] at hwait
    exact divisor_le hwait
  · intro hle
    have hpos : 0 < (timer.prescaler.toNat + 1) * delayFreq.toNat :=
      Nat.mul_pos (Nat.succ_pos _) hlow
    have hq : 1 ≤ 84000000 / ((timer.prescaler.toNat + 1) * delayFreq.toNat) := by
      rw [Nat.le_div_iff_mul_le hpos]
      omega
    have hwrap : (timer.prescaler.toNat + 1) * delayFreq.toNat < 2 ^ 32 := by omega
    have hproduct := toNat_tickDivisor hwrap
    have hticks := toNat_delayTicks hq
    have htwice := initializeTimer_twice htimer hq
    have hhalf : 84000000 / ((timer.prescaler.toNat + 1) * delayFreq.toNat) ≤
        168000000 / ((timer.prescaler.toNat + 1) * delayFreq.toNat) :=
      Nat.div_le_div_right (by decide)
    refine ⟨initializeTimer_held htimer, hproduct, ?_, ?_, ?_, ?_⟩
    · intro hzero
      rw [hzero] at hproduct
      exact absurd hproduct.symm (Nat.ne_of_gt hpos)
    · rw [BitVec.le_def, BitVec.toNat_udiv, hproduct]
      exact hq.trans hhalf
    · rw [BitVec.le_def, BitVec.toNat_udiv, hproduct]
      exact hq
    · rw [BitVec.lt_def]
      omega

/-- A composite number has a factor of at most its half. -/
theorem two_mul_minFac_le {n : Nat} (hn : 2 ≤ n) (hcomposite : ¬ n.Prime) :
    2 * n.minFac ≤ n := by
  have hsquare := Nat.minFac_sq_le_self (by omega) hcomposite
  have htwo := (Nat.minFac_prime (n := n) (by omega)).two_le
  rw [Nat.pow_two] at hsquare
  exact (Nat.mul_le_mul_right _ htwo).trans hsquare

/-- The divisor found is small where one less than the clocks is composite, or the
frequency is low. -/
theorem divisor_mul_le_iff {k : Nat} (h : Searched (168000000 / f) k)
    (hn : 3 ≤ 168000000 / f) (hlow : 1 ≤ f) :
    (k + 1) * f ≤ 84000000 ↔ f ≤ 1281 ∨ ¬ (168000000 / f - 1).Prime := by
  have hle := Nat.div_mul_le_self 168000000 f
  have hlt := lt_clocks_mul hlow
  rw [h.eq_minFac hn]
  generalize 168000000 / f = n at hn hle hlt ⊢
  constructor
  · intro hsmall
    by_contra hnot
    obtain ⟨hf, hprime⟩ := not_or.mp hnot
    rw [(not_not.mp hprime).minFac_eq] at hsmall
    rcases Nat.le_total (n - 1) 65536 with hmin | hmin
    · -- twice the divisor is more than the clocks
      rw [Nat.min_eq_left hmin] at hsmall
      have hmore : (n + 1) * f ≤ 2 * (n - 1) * f := Nat.mul_le_mul_right f (by omega)
      rw [Nat.succ_mul, Nat.mul_assoc] at hmore
      omega
    · rw [Nat.min_eq_right hmin] at hsmall
      omega
  · intro hcase
    rcases hcase with hf | hcomposite
    · have hmul := Nat.mul_le_mul (Nat.min_le_right (n - 1).minFac 65536) hf
      omega
    · have hhalf := two_mul_minFac_le (by omega) hcomposite
      have hmin := Nat.min_le_left (n - 1).minFac 65536
      have hmul : 2 * min (n - 1).minFac 65536 * f ≤ n * f := Nat.mul_le_mul_right f (by omega)
      rw [Nat.mul_assoc] at hmul
      omega

/-- The arithmetic is in range at the low frequencies and where one less than the clocks
of two periods is composite. -/
theorem initializeTimer_inRange_iff (hlow : 1 ≤ delayFreq.toNat)
    (hhigh : delayFreq.toNat ≤ 84000000) :
    ∃ timer, initializeTimer delayFreq = some timer ∧
      (InRange delayFreq timer ↔ delayFreq.toNat ≤ 1281 ∨
        3 ≤ 168000000 / delayFreq.toNat ∧ ¬ (168000000 / delayFreq.toNat - 1).Prime) := by
  obtain ⟨timer, htimer⟩ := Option.isSome_iff_exists.mp (initializeTimer_isSome delayFreq)
  have hsearched := initializeTimer_searched htimer
  refine ⟨timer, htimer, ?_⟩
  rw [inRange_iff htimer hlow]
  by_cases hn : 3 ≤ 168000000 / delayFreq.toNat
  · rw [divisor_mul_le_iff hsearched hn hlow]
    exact or_congr_right (and_iff_right hn).symm
  · -- two clocks: the search runs to its end and the product wraps
    have htwo := clocks_two_le hlow hhigh
    have hn' : 168000000 / delayFreq.toNat = 2 := by omega
    have hlt := lt_clocks_mul hlow
    rw [hn'] at hsearched hlt
    rw [hsearched.of_two]
    omega

theorem initializeTimer_inRange_iff_main :
    ∃ timer, initializeTimer 50#32 = some timer ∧
      (InRange 50#32 timer ↔ (50#32).toNat ≤ 1281 ∨
        3 ≤ 168000000 / (50#32).toNat ∧ ¬ (168000000 / (50#32).toNat - 1).Prime) :=
  initializeTimer_inRange_iff (by decide) (by decide)

/-- At 1 MHz one less than the 168 clocks is a prime, the second quotient is zero, and the
wait is to last for 2^32 - 1 ticks of a counter that stands still at 0. -/
theorem initializeTimer_outOfRange :
    initializeTimer 1000000#32 = some ⟨166#16, 0#32⟩ ∧
      ¬ InRange 1000000#32 ⟨166#16, 0#32⟩ ∧
      (delayTicks ⟨166#16, 0#32⟩ 1000000#32).toNat = 4294967295 := by
  have hset : initializeTimer 1000000#32 = some ⟨166#16, 0#32⟩ := by decide +kernel
  have hquotient : ¬ 1#32 ≤ 84000000#32 / tickDivisor 166#16 1000000#32 := by decide
  exact ⟨hset, fun h => hquotient h.wait, by decide⟩

end

end ImuFirmware
