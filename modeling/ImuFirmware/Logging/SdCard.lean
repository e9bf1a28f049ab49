/-
Logging to the SD card, in the build with SDCARD.

`main` is cut at its accesses to the card and to `Sdmounted`, and between any two of
them the button may be pressed.  The handler runs to completion.  Of FatFs the code
relies on a file object that is open or not, on a volume that is mounted or not, and
on no call being started while another is in progress (`_FS_REENTRANT` is 0).
-/
import Mathlib.Data.List.Count

namespace ImuFirmware

/-! ## FatFs -/

/-- `busy` says that `main` is inside a call. -/
structure FatFs where
  mounted : Bool
  isOpen : Bool
  busy : Bool
  deriving DecidableEq, Repr

/-- What the firmware does to the card, a call of `main` with its start and its end, and
the test of `Sdmounted`. -/
inductive Effect where
  | mountStart
  | mountEnd (ok : Bool)
  | openStart
  | openEnd (ok : Bool)
  | putsStart
  | putsEnd
  | close
  | unmount
  | test (sdmounted : Bool)
  deriving DecidableEq, Repr

namespace FatFs

def after (f : FatFs) : Effect → FatFs
  | .mountStart | .openStart | .putsStart => { f with busy := true }
  | .mountEnd ok => { f with mounted := ok, busy := false }
  | .openEnd ok => { f with isOpen := ok, busy := false }
  | .putsEnd => { f with busy := false }
  | .close => { f with isOpen := false }
  | .unmount => { f with mounted := false }
  | .test _ => f

def afterAll (f : FatFs) (es : List Effect) : FatFs := es.foldl after f

/-- No call starts while another is in progress, `f_puts` starts and ends on an open file
of a mounted volume, `f_close` acts on an open file, and `Sdmounted` is tested while it
says whether the file is open. -/
def allows (f : FatFs) : Effect → Bool
  | .mountStart | .openStart | .unmount => !f.busy
  | .putsStart => !f.busy && f.isOpen && f.mounted
  | .putsEnd => f.isOpen && f.mounted
  | .close => !f.busy && f.isOpen
  | .test sdmounted => sdmounted == f.isOpen
  | .mountEnd _ | .openEnd _ => true

/-- Every effect is allowed where it comes. -/
def clean : FatFs → List Effect → Bool
  | _, [] => true
  | f, e :: es => f.allows e && (f.after e).clean es

theorem clean_append (f : FatFs) (es fs : List Effect) :
    f.clean (es ++ fs) = (f.clean es && (f.afterAll es).clean fs) := by
  induction es generalizing f with
  | nil => rfl
  | cons e es ih =>
      rw [List.cons_append, clean, ih, clean, Bool.and_assoc]
      rfl

/-- Each successful `f_open` is closed at most once. -/
theorem count_close_le {f : FatFs} {es : List Effect} (h : f.clean es = true) :
    es.count .close ≤ es.count (.openEnd true) + f.isOpen.toNat := by
  induction es generalizing f with
  | nil => exact Nat.zero_le _
  | cons e es ih =>
      rw [clean, Bool.and_eq_true] at h
      have hrest := ih h.2
      cases e with
      | close =>
          have hopen : f.isOpen = true := (Bool.and_eq_true_iff.mp h.1).2
          have hclosed : (f.after .close).isOpen.toNat = 0 := rfl
          rw [hclosed] at hrest
          rw [hopen]
          simp only [List.count_cons_self, List.count_cons_of_ne, ne_eq, reduceCtorEq,
            not_false_eq_true]
          exact Nat.succ_le_succ hrest
      | openEnd ok =>
          have hopened : (f.after (.openEnd ok)).isOpen.toNat = ok.toNat := rfl
          rw [hopened] at hrest
          cases ok with
          | true => simpa [List.count_cons] using Nat.le_add_right_of_le hrest
          | false => simpa [List.count_cons] using Nat.le_add_right_of_le hrest
      | _ => simpa [List.count_cons, after] using hrest

end FatFs

/-! ## The firmware -/

/-- Where `main` stands after it has attached the interrupt: about to mount, inside
`f_mount`, mounted and about to switch on an LED, about to open, inside `f_open`, in the
loop before its test of `Sdmounted`, about to format, about to write, inside `f_puts`, or
in `EnsureSetRuntime`. -/
inductive Position where
  | attached
  | mounting
  | mounted
  | lit
  | opening
  | looping
  | formatting
  | formatted
  | putting
  | waiting
  deriving DecidableEq, Repr

structure Logger where
  position : Position
  sdmounted : Bool
  deriving DecidableEq, Repr

/-- A step of `main`, with the outcome of the call it returns from, if it does, or a
press of the button. -/
inductive Event where
  | main (ok : Bool)
  | press
  deriving DecidableEq, Repr

namespace Logger

def main (s : Logger) (ok : Bool) : Logger × List Effect :=
  match s.position with
  | .attached => ({ s with position := .mounting }, [.mountStart])
  | .mounting => ({ s with position := if ok then .mounted else .looping }, [.mountEnd ok])
  | .mounted => ({ s with position := .lit }, [])
  | .lit => ({ s with position := .opening }, [.openStart])
  -- what `f_open` returns is not looked at
  | .opening => ({ s with position := .looping }, [.openEnd ok])
  | .looping =>
      ({ s with position := if s.sdmounted then .formatting else .waiting }, [.test s.sdmounted])
  | .formatting => ({ s with position := .formatted }, [])
  | .formatted => ({ s with position := .putting }, [.putsStart])
  | .putting => ({ s with position := .waiting }, [.putsEnd])
  | .waiting => ({ s with position := .looping }, [])

/-- `TM_EXTI_Handler` for `GPIO_Pin_0`. -/
def tmExtiHandler (s : Logger) : Logger × List Effect :=
  ({ s with sdmounted := false }, [.close, .unmount])

def step (s : Logger) : Event → Logger × List Effect
  | .main ok => s.main ok
  | .press => s.tmExtiHandler

def effects : Logger → List Event → List Effect
  | _, [] => []
  | s, e :: es => (s.step e).2 ++ effects (s.step e).1 es

end Logger

/-- `Sdmounted` is 1 from the start. -/
def logger : Logger := ⟨.attached, true⟩

def noCard : FatFs := ⟨false, false, false⟩

end ImuFirmware
