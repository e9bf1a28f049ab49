/-
The accesses a program makes, whatever they return and whenever the machine moves.

`Emits Q p l` says that every path through `p` takes the log `l` to one that `Q`
accepts.  No machine occurs in it, so it holds of the logs of all runs.
-/
import ImuFirmware.Polling.Program

namespace Polling

variable {S : Sig} {σ α β : Type}

def Emits (Q : List S.Op → Prop) : Prog S α → List S.Op → Prop
  | .done _, l => Q l
  | .access o k, l => ∀ r, Emits Q (k r) (l ++ [o])
  | .wait _ k, l => Emits Q k l

theorem emits_mono {Q R : List S.Op → Prop} (h : ∀ l, Q l → R l) {p : Prog S α}
    {l : List S.Op} (hp : Emits Q p l) : Emits R p l := by
  induction p generalizing l with
  | done a => exact h l hp
  | access o k ih => exact fun r => ih r (hp r)
  | wait c k ih => exact ih hp

theorem emits_and {Q R : List S.Op → Prop} {p : Prog S α} {l : List S.Op}
    (hq : Emits Q p l) (hr : Emits R p l) : Emits (fun l => Q l ∧ R l) p l := by
  induction p generalizing l with
  | done a => exact ⟨hq, hr⟩
  | access o k ih => exact fun r => ih r (hq r) (hr r)
  | wait c k ih => exact ih hq hr

theorem emits_seq {Q R : List S.Op → Prop} {p : Prog S α} {f : α → Prog S β} {l : List S.Op}
    (hp : Emits R p l) (hf : ∀ a l', R l' → Emits Q (f a) l') : Emits Q (p >>= f) l := by
  induction p generalizing l with
  | done a => exact hf a l hp
  | access o k ih => exact fun r => ih r (hp r)
  | wait c k ih => exact ih hp

/-- What comes last decides, where it does so on every log. -/
theorem emits_after {Q : List S.Op → Prop} {p : Prog S α} {f : α → Prog S β} {l : List S.Op}
    (hf : ∀ a l', Emits Q (f a) l') : Emits Q (p >>= f) l := by
  induction p generalizing l with
  | done a => exact hf a l
  | access o k ih => exact fun r => ih r
  | wait c k ih => exact ih

/-- The log only grows. -/
theorem emits_extends (p : Prog S α) (l : List S.Op) : Emits (l <+: ·) p l := by
  induction p generalizing l with
  | done a => exact List.prefix_refl l
  | access o k ih =>
      intro r
      exact emits_mono (fun l' h => (List.prefix_append l [o]).trans h) (ih r (l ++ [o]))
  | wait c k ih => exact ih l

/-- A condition that cannot be repaired later holds before it holds at the end. -/
theorem emits_now [∀ o, Nonempty (S.Ret o)] {Q : List S.Op → Prop}
    (hQ : ∀ l o, Q (l ++ [o]) → Q l) {p : Prog S α} {l : List S.Op} (hp : Emits Q p l) :
    Q l := by
  induction p generalizing l with
  | done a => exact hp
  | access o k ih =>
      obtain ⟨r⟩ : Nonempty (S.Ret o) := inferInstance
      exact hQ l o (ih r (hp r))
  | wait c k ih => exact ih hp

variable {M : Machine S σ} {Q : List S.Op → Prop} {c d : Config S σ α}

theorem emits_move {m : Move} (hc : Emits Q c.prog c.log) (hm : M.move c m = some d) :
    Emits Q d.prog d.log := by
  cases m with
  | machine =>
      obtain ⟨t, -, rfl⟩ := M.move_machine hm
      exact hc
  | program =>
      obtain ⟨p, s, log⟩ := c
      cases p with
      | done a => exact nomatch hm
      | access o k =>
          obtain rfl := Option.some.inj hm
          exact hc _
      | wait w k =>
          obtain rfl := Option.some.inj hm
          show Emits Q (if M.exits w s then k else .wait w k) log
          split
          · exact hc
          · exact hc

theorem emits_run {ms : List Move} (hc : Emits Q c.prog c.log) (hr : M.run ms c = some d) :
    Emits Q d.prog d.log := by
  induction ms generalizing c with
  | nil =>
      obtain rfl := Option.some.inj hr
      exact hc
  | cons m ms ih =>
      obtain ⟨e, he, hd⟩ := Option.bind_eq_some_iff.mp hr
      exact ih (emits_move hc he) hd

/-- The log of a run that has returned. -/
theorem emits_result {p : Prog S α} {s : σ} {ms : List Move} (hp : Emits Q p [])
    (hr : M.run ms ⟨p, s, []⟩ = some c) (hret : c.result.isSome = true) : Q c.log := by
  have h := emits_run (c := ⟨p, s, []⟩) hp hr
  obtain ⟨q, t, log⟩ := c
  cases q with
  | done a => exact h
  | access o k => exact nomatch hret
  | wait w k => exact nomatch hret

end Polling
