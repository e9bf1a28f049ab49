/-
The events of the user button, `led.c`.

Both functions leave the level they sampled in the one `INT_LED_ButtonPressed`, also
where they return 0.  A call therefore reports the change since the last call of either
function, and a change that the other function was the first to sample is reported by
no call.
-/
import Mathlib.Data.List.Count

namespace ImuFirmware

/-! ## The functions -/

/-- `BUTTON_PRESSED` -/
def buttonPressed : Bool := true

/-- `LED_ButtonPressed`, given the value of the pin. -/
def ledButtonPressed (pin : Bool) : Bool := (pin == false) != buttonPressed

/-- What the call returns, and `INT_LED_ButtonPressed` after it. -/
def ledButtonOnPressed (pin intLedButtonPressed : Bool) : Bool × Bool :=
  if ledButtonPressed pin then
    if !intLedButtonPressed then (true, true) else (false, intLedButtonPressed)
  else (false, false)

def ledButtonOnReleased (pin intLedButtonPressed : Bool) : Bool × Bool :=
  if !ledButtonPressed pin then
    if intLedButtonPressed then (true, false) else (false, intLedButtonPressed)
  else (false, true)

/-! ## Sequences of calls -/

inductive Poller where
  | onPressed
  | onReleased
  deriving DecidableEq, Repr

/-- The level that a poller waits for, `true` for pressed. -/
def Poller.level : Poller → Bool
  | .onPressed => true
  | .onReleased => false

structure ButtonCall where
  poller : Poller
  pin : Bool
  deriving DecidableEq, Repr

namespace ButtonCall

/-- The level it samples. -/
def pressed (c : ButtonCall) : Bool := ledButtonPressed c.pin

def run (c : ButtonCall) (intLedButtonPressed : Bool) : Bool × Bool :=
  match c.poller with
  | .onPressed => ledButtonOnPressed c.pin intLedButtonPressed
  | .onReleased => ledButtonOnReleased c.pin intLedButtonPressed

/-- A call keeps the level it sampled. -/
theorem run_status (c : ButtonCall) (status : Bool) : (c.run status).2 = c.pressed := by
  obtain ⟨poller, pin⟩ := c
  cases poller <;> cases pin <;> cases status <;> rfl

/-- A call returns 1 where it samples the level it waits for and the last one did not. -/
theorem run_returns (c : ButtonCall) (status : Bool) :
    (c.run status).1 = (c.pressed == c.poller.level && status != c.poller.level) := by
  obtain ⟨poller, pin⟩ := c
  cases poller <;> cases pin <;> cases status <;> rfl

end ButtonCall

/-- The calls, each with what it returned. -/
def buttonHistory : Bool → List ButtonCall → List (ButtonCall × Bool)
  | _, [] => []
  | status, c :: cs => (c, (c.run status).1) :: buttonHistory (c.run status).2 cs

/-- `INT_LED_ButtonPressed` after the calls. -/
def statusAfter : Bool → List ButtonCall → Bool
  | status, [] => status
  | status, c :: cs => statusAfter (c.run status).2 cs

section

variable {status : Bool} {cs : List ButtonCall}

theorem length_buttonHistory (status : Bool) (cs : List ButtonCall) :
    (buttonHistory status cs).length = cs.length := by
  induction cs generalizing status with
  | nil => rfl
  | cons c cs ih => rw [buttonHistory, List.length_cons, ih, List.length_cons]

theorem buttonHistory_append (status : Bool) (cs ds : List ButtonCall) :
    buttonHistory status (cs ++ ds) =
      buttonHistory status cs ++ buttonHistory (statusAfter status cs) ds := by
  induction cs generalizing status with
  | nil => rfl
  | cons c cs ih => rw [List.cons_append, buttonHistory, ih, buttonHistory, statusAfter]; rfl

/-- The status is the level of the last call. -/
theorem statusAfter_concat (status : Bool) (cs : List ButtonCall) (c : ButtonCall) :
    statusAfter status (cs ++ [c]) = c.pressed := by
  induction cs generalizing status with
  | nil => exact c.run_status status
  | cons b cs ih => exact ih _

end

/-! ## Runs of one level -/

/-- The calls `run` sample `level` and their neighbours do not. -/
structure MaximalRun (level : Bool) (before run after : List ButtonCall) : Prop where
  nonempty : run ≠ []
  sampled : ∀ c ∈ run, c.pressed = level
  starts : ∀ c ∈ before.getLast?, c.pressed ≠ level
  ends : ∀ c ∈ after.head?, c.pressed ≠ level

/-- The calls of a poller that returned 1. -/
def reportedBy (p : Poller) (entries : List (ButtonCall × Bool)) : Nat :=
  entries.countP fun e => e.1.poller == p && e.2

/-- In every maximal run at the level a poller waits for, exactly one of its calls returns 1
if a report is due, and else none.  Released runs count after a pressed sample. -/
def ReportsRuns (due : Poller → List ButtonCall → Bool) (calls : List ButtonCall) : Prop :=
  ∀ p before run after, calls = before ++ (run ++ after) →
    MaximalRun p.level before run after →
    (p = .onReleased → ∃ c ∈ before, c.pressed = true) →
    reportedBy p (((buttonHistory false calls).drop before.length).take run.length) =
      (due p run).toNat

/-- No call returns 1 outside the runs of its level, a released one outside those after a
pressed sample. -/
def ReportsNoOther (calls : List ButtonCall) : Prop :=
  ∀ i c, (buttonHistory false calls)[i]? = some (c, true) →
    c.pressed = c.poller.level ∧
      (c.poller = .onReleased → ∃ b ∈ calls.take i, b.pressed = true)

/-- The poller is called in the run. -/
def calledIn (p : Poller) (run : List ButtonCall) : Bool := run.any fun c => c.poller == p

/-- The poller is called first in the run. -/
def calledFirst (p : Poller) (run : List ButtonCall) : Bool :=
  run.head?.any fun c => c.poller == p

section

variable {level status : Bool} {p : Poller} {before run after calls : List ButtonCall}

theorem reportedBy_cons (p : Poller) (c : ButtonCall) (returned : Bool)
    (entries : List (ButtonCall × Bool)) :
    reportedBy p ((c, returned) :: entries) =
      reportedBy p entries + (c.poller == p && returned).toNat := by
  rw [reportedBy, List.countP_cons, reportedBy]
  cases c.poller == p && returned <;> rfl

/-- Where the level does not change nothing is reported. -/
theorem reportedBy_steady (hsampled : ∀ c ∈ run, c.pressed = p.level) :
    reportedBy p (buttonHistory p.level run) = 0 := by
  induction run with
  | nil => rfl
  | cons c run ih =>
      obtain ⟨hc, hrun⟩ := List.forall_mem_cons.mp hsampled
      have hnot : (c.poller == p && (c.run p.level).1) = false := by
        by_cases hp : c.poller = p
        · rw [c.run_returns, hp, bne_self_eq_false, Bool.and_false, Bool.and_false]
        · rw [beq_false_of_ne hp, Bool.false_and]
      rw [buttonHistory, reportedBy_cons, hnot, c.run_status, hc, ih hrun]
      rfl

/-- A run that begins with a change is reported by its first call or not at all. -/
theorem reportedBy_changed (hnonempty : run ≠ []) (hsampled : ∀ c ∈ run, c.pressed = p.level)
    (hstatus : status ≠ p.level) :
    reportedBy p (buttonHistory status run) = (calledFirst p run).toNat := by
  cases run with
  | nil => exact absurd rfl hnonempty
  | cons c run =>
      obtain ⟨hc, hrun⟩ := List.forall_mem_cons.mp hsampled
      have hreturns : (c.poller == p && (c.run status).1) = (c.poller == p) := by
        by_cases hp : c.poller = p
        · rw [c.run_returns, hp, hc, bne_iff_ne.mpr hstatus, beq_self_eq_true, beq_self_eq_true]
          rfl
        · rw [beq_false_of_ne hp, Bool.false_and]
      rw [buttonHistory, reportedBy_cons, hreturns, c.run_status, hc, reportedBy_steady hrun,
        Nat.zero_add]
      rfl

/-- Before a maximal run the status is the other level. -/
theorem MaximalRun.statusAfter_ne (h : MaximalRun p.level before run after)
    (hafter : p = .onReleased → before ≠ []) : statusAfter false before ≠ p.level := by
  rcases List.eq_nil_or_concat before with rfl | ⟨front, c, rfl⟩
  · cases p with
    | onPressed => exact Bool.false_ne_true
    | onReleased => exact absurd rfl (hafter rfl)
  · rw [List.concat_eq_append, statusAfter_concat]
    exact h.starts c (by rw [List.concat_eq_append, List.getLast?_concat]; rfl)

/-- The calls of the run within the whole history. -/
theorem history_during (before run after : List ButtonCall) :
    ((buttonHistory false (before ++ (run ++ after))).drop before.length).take run.length =
      buttonHistory (statusAfter false before) run := by
  rw [buttonHistory_append, buttonHistory_append, ← length_buttonHistory false before,
    List.drop_left, ← length_buttonHistory (statusAfter false before) run, List.take_left]

theorem reportsRuns_calledFirst (calls : List ButtonCall) : ReportsRuns calledFirst calls := by
  intro p before run after hcalls hrun hafter
  have hbefore : p = .onReleased → before ≠ [] := by
    intro hp hnil
    obtain ⟨c, hc, -⟩ := hafter hp
    rw [hnil] at hc
    exact nomatch hc
  rw [hcalls, history_during]
  exact reportedBy_changed hrun.nonempty hrun.sampled (hrun.statusAfter_ne hbefore)

theorem returned_of_history {i : Nat} {c : ButtonCall}
    (h : (buttonHistory status calls)[i]? = some (c, true)) :
    c.pressed = c.poller.level ∧
      (c.poller = .onReleased → status = true ∨ ∃ b ∈ calls.take i, b.pressed = true) := by
  induction calls generalizing status i with
  | nil => exact nomatch h
  | cons b calls ih =>
      rw [buttonHistory] at h
      cases i with
      | zero =>
          obtain ⟨rfl, hreturns⟩ := Prod.mk.inj (Option.some.inj h)
          rw [b.run_returns, Bool.and_eq_true, beq_iff_eq, bne_iff_ne] at hreturns
          refine ⟨hreturns.1, fun hp => Or.inl ?_⟩
          have hstatus := hreturns.2
          rw [hp] at hstatus
          exact eq_true_of_ne_false hstatus
      | succ i =>
          obtain ⟨hlevel, hearlier⟩ := ih h
          refine ⟨hlevel, fun hp => Or.inr ?_⟩
          rw [List.take_succ_cons]
          rcases hearlier hp with hb | ⟨d, hd, hpressed⟩
          · exact ⟨b, List.mem_cons_self .., by rwa [b.run_status] at hb⟩
          · exact ⟨d, List.mem_cons_of_mem b hd, hpressed⟩

/-- A run is reported exactly once where the poller that waits for it makes its first call,
and else not at all, and nothing else is reported. -/
theorem button_reports (calls : List ButtonCall) :
    ReportsRuns calledFirst calls ∧ ReportsNoOther calls := by
  refine ⟨reportsRuns_calledFirst calls, fun i c h => ?_⟩
  obtain ⟨hlevel, hearlier⟩ := returned_of_history h
  refine ⟨hlevel, fun hp => ?_⟩
  rcases hearlier hp with hfalse | hpressed
  · exact absurd hfalse Bool.false_ne_true
  · exact hpressed

/-- Every edge reaches a poller that is called in its run exactly where that poller is always
the first to sample it. -/
theorem reportsRuns_calledIn_iff (calls : List ButtonCall) :
    ReportsRuns calledIn calls ↔
      ∀ p before run after, calls = before ++ (run ++ after) →
        MaximalRun p.level before run after →
        (p = .onReleased → ∃ c ∈ before, c.pressed = true) →
        calledIn p run = calledFirst p run := by
  have hfirst := reportsRuns_calledFirst calls
  have hinj : ∀ a b : Bool, a.toNat = b.toNat → a = b := by decide
  constructor
  · intro h p before run after hcalls hrun hafter
    have hnat := (h p before run after hcalls hrun hafter).symm.trans
      (hfirst p before run after hcalls hrun hafter)
    exact hinj _ _ hnat
  · intro h p before run after hcalls hrun hafter
    rw [h p before run after hcalls hrun hafter]
    exact hfirst p before run after hcalls hrun hafter

/-- A press that `LED_ButtonOnReleased` samples first, and a release that
`LED_ButtonOnPressed` samples first, are reported by no call. -/
theorem button_edges_lost :
    ¬ ReportsRuns calledIn [⟨.onReleased, true⟩, ⟨.onPressed, true⟩] ∧
      ¬ ReportsRuns calledIn
        [⟨.onPressed, true⟩, ⟨.onPressed, false⟩, ⟨.onReleased, false⟩] := by
  constructor
  · intro h
    have hreported := h .onPressed [] [⟨.onReleased, true⟩, ⟨.onPressed, true⟩] [] rfl
      ⟨by decide, by decide, by decide, by decide⟩ nofun
    exact absurd hreported (by decide)
  · intro h
    have hreported := h .onReleased [⟨.onPressed, true⟩]
      [⟨.onPressed, false⟩, ⟨.onReleased, false⟩] [] rfl
      ⟨by decide, by decide, by decide, by decide⟩ (by decide)
    exact absurd hreported (by decide)

end

end ImuFirmware
