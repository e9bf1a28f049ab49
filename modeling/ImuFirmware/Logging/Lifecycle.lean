/-
When the card's lifecycle is kept.

Mounting and opening have to succeed, since `Sdmounted` is 1 whatever they returned,
and the button may be pressed only while the file is open and `main` is on neither
side of `f_puts`.  A run that breaks this once goes wrong within two steps of `main`,
whatever comes after.
-/
import ImuFirmware.Logging.SdCard

namespace ImuFirmware

/-- The condition on one event. -/
def Spared (s : Logger) (f : FatFs) : Event → Prop
  | .main ok => s.position = .mounting ∨ s.position = .opening → ok = true
  | .press => f.isOpen = true ∧ (s.position = .looping ∨ s.position = .waiting)

/-- The condition along a run. -/
def Considerate (s : Logger) (f : FatFs) : List Event → Prop
  | [] => True
  | e :: es => Spared s f e ∧ Considerate (s.step e).1 (f.afterAll (s.step e).2) es

/-- What the card is like where `main` stands. -/
def Consistent (s : Logger) (f : FatFs) : Prop :=
  match s.position with
  | .attached => s.sdmounted = true ∧ f = ⟨false, false, false⟩
  | .mounting => s.sdmounted = true ∧ f = ⟨false, false, true⟩
  | .mounted | .lit => s.sdmounted = true ∧ f = ⟨true, false, false⟩
  | .opening => s.sdmounted = true ∧ f = ⟨true, false, true⟩
  | .looping | .waiting => f = ⟨s.sdmounted, s.sdmounted, false⟩
  | .formatting | .formatted => s.sdmounted = true ∧ f = ⟨true, true, false⟩
  | .putting => s.sdmounted = true ∧ f = ⟨true, true, true⟩

variable {s : Logger} {f : FatFs} {e : Event} {es : List Event}

theorem consistent_main {ok : Bool} (h : Consistent s f) (he : Spared s f (.main ok)) :
    f.clean (s.main ok).2 = true ∧ Consistent (s.main ok).1 (f.afterAll (s.main ok).2) := by
  obtain ⟨position, sdmounted⟩ := s
  cases position with
  | looping =>
      obtain rfl := h
      cases sdmounted with
      | true => exact ⟨rfl, rfl, rfl⟩
      | false => exact ⟨rfl, rfl⟩
  | waiting =>
      obtain rfl := h
      exact ⟨rfl, rfl⟩
  | mounting =>
      obtain ⟨rfl, rfl⟩ := h
      obtain rfl := he (Or.inl rfl)
      exact ⟨rfl, rfl, rfl⟩
  | opening =>
      obtain ⟨rfl, rfl⟩ := h
      obtain rfl := he (Or.inr rfl)
      exact ⟨rfl, rfl⟩
  | putting =>
      obtain ⟨rfl, rfl⟩ := h
      exact ⟨rfl, rfl⟩
  | _ =>
      obtain ⟨rfl, rfl⟩ := h
      exact ⟨rfl, rfl, rfl⟩

theorem consistent_press (h : Consistent s f) (he : Spared s f .press) :
    f.clean s.tmExtiHandler.2 = true ∧
      Consistent s.tmExtiHandler.1 (f.afterAll s.tmExtiHandler.2) := by
  obtain ⟨position, sdmounted⟩ := s
  obtain ⟨hopen, rfl | rfl⟩ := he
  · obtain rfl := h
    obtain rfl : sdmounted = true := hopen
    exact ⟨rfl, rfl⟩
  · obtain rfl := h
    obtain rfl : sdmounted = true := hopen
    exact ⟨rfl, rfl⟩

theorem consistent_step (h : Consistent s f) (he : Spared s f e) :
    f.clean (s.step e).2 = true ∧ Consistent (s.step e).1 (f.afterAll (s.step e).2) := by
  cases e with
  | main ok => exact consistent_main h he
  | press => exact consistent_press h he

theorem clean_of_considerate (h : Consistent s f) (hes : Considerate s f es) :
    f.clean (s.effects es) = true := by
  induction es generalizing s f with
  | nil => rfl
  | cons e es ih =>
      obtain ⟨hclean, hnext⟩ := consistent_step h hes.1
      rw [Logger.effects, FatFs.clean_append, hclean]
      exact ih hnext hes.2

/-! ## Runs that break the condition -/

/-- The file is closed and `main` is about to find it open in `Sdmounted` or to write. -/
def Failing (s : Logger) (f : FatFs) : Prop :=
  f.isOpen = false ∧ (s.position = .looping ∧ s.sdmounted = true ∨ s.position = .formatted)

/-- Two steps of `main` in which nothing fails. -/
def goOn : List Event := [.main true, .main true]

theorem clean_main_of_failing {ok : Bool} (h : Failing s f) :
    f.clean (s.effects (.main ok :: es)) = false := by
  obtain ⟨position, sdmounted⟩ := s
  obtain ⟨hclosed, ⟨rfl, rfl⟩ | rfl⟩ := h
  · show ((true == f.isOpen) && _) = false
    rw [hclosed]
    rfl
  · show ((!f.busy && f.isOpen && f.mounted) && _) = false
    rw [hclosed, Bool.and_false, Bool.false_and, Bool.false_and]

theorem clean_press_of_closed (h : f.isOpen = false) :
    f.clean (s.effects (.press :: es)) = false := by
  show ((!f.busy && f.isOpen) && _) = false
  rw [h, Bool.and_false, Bool.false_and]

theorem clean_of_failing (es : List Event) (h : Failing s f) :
    f.clean (s.effects (es ++ goOn)) = false := by
  cases es with
  | nil => exact clean_main_of_failing h
  | cons e es =>
      cases e with
      | main ok => exact clean_main_of_failing h
      | press => exact clean_press_of_closed h.1

/-- From the test on, a closed file is written to. -/
theorem clean_of_formatting (es : List Event) (hclosed : f.isOpen = false)
    (hp : s.position = .formatting) :
    f.clean (s.effects (es ++ goOn)) = false := by
  obtain ⟨position, sdmounted⟩ := s
  obtain rfl := hp
  have hfailing : Failing ⟨.formatted, sdmounted⟩ f := ⟨hclosed, Or.inr rfl⟩
  cases es with
  | nil =>
      show f.clean (Logger.effects ⟨.formatted, sdmounted⟩ [.main true]) = false
      exact clean_main_of_failing hfailing
  | cons e es =>
      cases e with
      | main ok => exact clean_of_failing es hfailing
      | press => exact clean_press_of_closed hclosed

/-- An event that breaks the condition is unclean itself or leaves a closed file. -/
theorem clean_of_not_spared (es : List Event) (h : Consistent s f) (he : ¬ Spared s f e) :
    f.clean (s.step e).2 = false ∨
      (f.afterAll (s.step e).2).clean ((s.step e).1.effects (es ++ goOn)) = false := by
  obtain ⟨position, sdmounted⟩ := s
  cases e with
  | main ok =>
      obtain ⟨hp, hok⟩ := Classical.not_imp.mp he
      obtain rfl := eq_false_of_ne_true hok
      right
      rcases hp with rfl | rfl
      · obtain ⟨rfl, rfl⟩ := h
        exact clean_of_failing es ⟨rfl, Or.inl ⟨rfl, rfl⟩⟩
      · obtain ⟨rfl, rfl⟩ := h
        exact clean_of_failing es ⟨rfl, Or.inl ⟨rfl, rfl⟩⟩
  | press =>
      by_cases hopen : f.isOpen = true
      · -- with the file open `main` is on its way to `f_puts` or inside it
        cases position with
        | looping => exact absurd ⟨hopen, Or.inl rfl⟩ he
        | waiting => exact absurd ⟨hopen, Or.inr rfl⟩ he
        | formatting => exact Or.inr (clean_of_formatting es rfl rfl)
        | formatted => exact Or.inr (clean_of_failing es ⟨rfl, Or.inr rfl⟩)
        | putting =>
            obtain ⟨-, rfl⟩ := h
            exact Or.inl rfl
        | _ =>
            obtain ⟨-, rfl⟩ := h
            exact nomatch hopen
      · left
        show ((!f.busy && f.isOpen) && _) = false
        rw [eq_false_of_ne_true hopen, Bool.and_false, Bool.false_and]

theorem considerate_goOn (h : Considerate s f es) : Considerate s f (es ++ goOn) := by
  induction es generalizing s f with
  | nil => exact ⟨fun _ => rfl, fun _ => rfl, trivial⟩
  | cons e es ih => exact ⟨h.1, ih h.2⟩

theorem considerate_of_clean (h : Consistent s f)
    (hclean : f.clean (s.effects (es ++ goOn)) = true) : Considerate s f es := by
  induction es generalizing s f with
  | nil => trivial
  | cons e es ih =>
      rw [List.cons_append, Logger.effects, FatFs.clean_append, Bool.and_eq_true] at hclean
      by_cases he : Spared s f e
      · exact ⟨he, ih (consistent_step h he).2 hclean.2⟩
      · rcases clean_of_not_spared es h he with hbad | hbad
        · exact absurd (hbad.symm.trans hclean.1) nofun
        · exact absurd (hbad.symm.trans hclean.2) nofun

/-- The card's lifecycle is kept in the considerate runs, and in no other that gets two
steps of `main` further. -/
theorem logging_clean_iff (es : List Event) :
    (Considerate logger noCard es → noCard.clean (logger.effects es) = true ∧
      (logger.effects es).count .close ≤ (logger.effects es).count (.openEnd true)) ∧
    (Considerate logger noCard es ↔ noCard.clean (logger.effects (es ++ goOn)) = true) := by
  have hstart : Consistent logger noCard := ⟨rfl, rfl⟩
  refine ⟨fun hes => ?_, fun hes => ?_, considerate_of_clean hstart⟩
  · have hclean := clean_of_considerate hstart hes
    exact ⟨hclean, FatFs.count_close_le hclean⟩
  · exact clean_of_considerate hstart (considerate_goOn hes)

/-- `main` up to its first test of `Sdmounted`, with everything going well. -/
def opened : List Event := List.replicate 5 (.main true)

/-- A volume that does not mount, a press before it, one between the test and `f_puts`, one
inside `f_puts`, and two presses. -/
theorem logging_unclean :
    noCard.clean (logger.effects [.main true, .main false, .main true]) = false ∧
    noCard.clean (logger.effects [.press]) = false ∧
    noCard.clean (logger.effects (opened ++ [.main true, .press, .main true, .main true])) =
      false ∧
    noCard.clean (logger.effects (opened ++ [.main true, .main true, .main true, .press])) =
      false ∧
    noCard.clean (logger.effects (opened ++ [.press, .press])) = false := by
  decide

end ImuFirmware
