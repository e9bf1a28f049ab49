/-
Polling programs and their interleaved runs.

A program here is a sequence of accesses to a machine and of wait loops with an
empty body, `while (!condition);`.  The machine moves on its own between any two
moves of the program, and what it does next depends on its state alone.  When it
does so is free, so a run is a list of moves saying whose turn it was.
-/
import Mathlib.Logic.Relation

namespace Polling

/-- What a program may do: accesses, each with the type of its result, and the
conditions its wait loops test. -/
structure Sig where
  Op : Type
  Ret : Op → Type
  Cond : Type

/-- A program over `S` that returns an `α`. -/
inductive Prog (S : Sig) (α : Type) : Type where
  | done (a : α)
  | access (o : S.Op) (k : S.Ret o → Prog S α)
  | wait (c : S.Cond) (k : Prog S α)

namespace Prog

variable {S : Sig} {α β γ : Type}

def bind : Prog S α → (α → Prog S β) → Prog S β
  | .done a, f => f a
  | .access o k, f => .access o (fun r => (k r).bind f)
  | .wait c k, f => .wait c (k.bind f)

instance : Monad (Prog S) where
  pure := .done
  bind := bind

theorem bind_access (o : S.Op) (k : S.Ret o → Prog S α) (f : α → Prog S β) :
    (Prog.access o k >>= f) = .access o (fun r => k r >>= f) := rfl

theorem bind_wait (c : S.Cond) (k : Prog S α) (f : α → Prog S β) :
    (Prog.wait c k >>= f) = .wait c (k >>= f) := rfl

theorem bind_done_right (p : Prog S α) : (p >>= Prog.done) = p := by
  induction p with
  | done a => rfl
  | access o k ih => rw [bind_access]; exact congrArg _ (funext ih)
  | wait c k ih => rw [bind_wait, ih]

theorem bind_bind (p : Prog S α) (f : α → Prog S β) (g : β → Prog S γ) :
    (p >>= f >>= g) = p >>= fun a => f a >>= g := by
  induction p with
  | done a => rfl
  | access o k ih =>
      rw [bind_access, bind_access, bind_access]
      exact congrArg _ (funext ih)
  | wait c k ih => rw [bind_wait, bind_wait, bind_wait, ih]

instance : LawfulMonad (Prog S) :=
  LawfulMonad.mk' (Prog S) bind_done_right (fun _ _ => rfl) bind_bind

def op (o : S.Op) : Prog S (S.Ret o) := .access o .done

def await (c : S.Cond) : Prog S Unit := .wait c (.done ())

end Prog

/-- Where a program stands: it has returned, it is about to make an access, or it
sits in a wait loop. -/
inductive Ctl (S : Sig) where
  | returned
  | accessing (o : S.Op)
  | waiting (c : S.Cond)

def Prog.ctl {S : Sig} {α : Type} : Prog S α → Ctl S
  | .done _ => .returned
  | .access o _ => .accessing o
  | .wait c _ => .waiting c

/-- The condition of the wait loop a program sits in. -/
def Prog.awaiting {S : Sig} {α : Type} : Prog S α → Option S.Cond
  | .done _ | .access _ _ => none
  | .wait c _ => some c

def Prog.WaitFree {S : Sig} {α : Type} : Prog S α → Prop
  | .done _ => True
  | .access _ k => ∀ r, (k r).WaitFree
  | .wait _ _ => False

theorem Prog.waitFree_bind {S : Sig} {α β : Type} {p : Prog S α} {f : α → Prog S β}
    (hp : p.WaitFree) (hf : ∀ a, (f a).WaitFree) : (p >>= f).WaitFree := by
  induction p with
  | done a => exact hf a
  | access o k ih => exact fun r => ih r (hp r)
  | wait c k ih => exact hp.elim

/-- Every access the program can make meets `P`. -/
def Prog.Only {S : Sig} {α : Type} (P : S.Op → Prop) : Prog S α → Prop
  | .done _ => True
  | .access o k => P o ∧ ∀ r, (k r).Only P
  | .wait _ k => k.Only P

theorem Prog.only_bind {S : Sig} {α β : Type} {P : S.Op → Prop} {p : Prog S α}
    {f : α → Prog S β} (hp : p.Only P) (hf : ∀ a, (f a).Only P) : (p >>= f).Only P := by
  induction p with
  | done a => exact hf a
  | access o k ih => exact ⟨hp.1, fun r => ih r (hp.2 r)⟩
  | wait c k ih => exact ih hp

/-- The machine under a program.  `exits` is the value one poll of a wait loop
finds and `poll` is what that poll does to the machine.  `step` is the next move
the machine makes on its own, if it has one. -/
structure Machine (S : Sig) (σ : Type) where
  access : (o : S.Op) → σ → S.Ret o × σ
  exits : S.Cond → σ → Bool
  poll : S.Cond → σ → σ
  step : σ → Option σ

inductive Move where
  | program
  | machine
  deriving DecidableEq, Repr

/-- A program part way through, the machine under it, and the accesses made so
far. -/
structure Config (S : Sig) (σ α : Type) where
  prog : Prog S α
  state : σ
  log : List S.Op

/-- What a program that has returned leaves: its value and the machine. -/
def Config.result {S : Sig} {σ α : Type} (c : Config S σ α) : Option (α × σ) :=
  match c.prog with
  | .done a => some (a, c.state)
  | .access _ _ | .wait _ _ => none

namespace Machine

variable {S : Sig} {σ α : Type} (M : Machine S σ)

/-- One move.  A run ends when the program returns. -/
def move (c : Config S σ α) (m : Move) : Option (Config S σ α) :=
  match c.prog, m with
  | .done _, _ => none
  | .access o k, .program =>
      some ⟨k (M.access o c.state).1, (M.access o c.state).2, c.log ++ [o]⟩
  | .wait w k, .program =>
      some ⟨if M.exits w c.state then k else .wait w k, M.poll w c.state, c.log⟩
  | .access _ _, .machine | .wait _ _, .machine =>
      (M.step c.state).map fun s => { c with state := s }

theorem move_machine {c d : Config S σ α} (h : M.move c .machine = some d) :
    ∃ t, M.step c.state = some t ∧ d = { c with state := t } := by
  obtain ⟨p, s, log⟩ := c
  cases p with
  | done a => exact nomatch h
  | access o k =>
      obtain ⟨t, ht, hd⟩ := Option.map_eq_some_iff.mp h
      exact ⟨t, ht, hd.symm⟩
  | wait w k =>
      obtain ⟨t, ht, hd⟩ := Option.map_eq_some_iff.mp h
      exact ⟨t, ht, hd.symm⟩

def run : List Move → Config S σ α → Option (Config S σ α)
  | [], c => some c
  | m :: ms, c => (M.move c m).bind (run ms)

theorem run_append (ms ns : List Move) (c : Config S σ α) :
    M.run (ms ++ ns) c = (M.run ms c).bind (M.run ns) := by
  induction ms generalizing c with
  | nil => rfl
  | cons m ms ih =>
      simp only [List.cons_append, run]
      cases M.move c m with
      | none => rfl
      | some d => exact ih d

/-- Along the moves `ms` the program returns `a` and leaves the machine in `t`. -/
def Returns (ms : List Move) (p : Prog S α) (s : σ) (a : α) (t : σ) : Prop :=
  (M.run ms ⟨p, s, []⟩).bind Config.result = some (a, t)

theorem returns_iff {ms : List Move} {p : Prog S α} {s t : σ} {a : α} :
    M.Returns ms p s a t ↔ ∃ log, M.run ms ⟨p, s, []⟩ = some ⟨.done a, t, log⟩ := by
  constructor
  · intro h
    obtain ⟨⟨q, u, log⟩, hrun, hres⟩ := Option.bind_eq_some_iff.mp h
    cases q with
    | done b =>
        obtain ⟨rfl, rfl⟩ := Prod.mk.inj (Option.some.inj hres)
        exact ⟨log, hrun⟩
    | access o k => exact nomatch hres
    | wait c k => exact nomatch hres
  · intro hcase
    obtain ⟨log, hrun⟩ := hcase
    rw [Returns, hrun]
    rfl

/-- What every access, every poll and every move of the machine keeps, a run
keeps. -/
theorem run_rel {R : σ → σ → Prop} (hrefl : ∀ s, R s s)
    (htrans : ∀ s t u, R s t → R t u → R s u) (haccess : ∀ o s, R s (M.access o s).2)
    (hpoll : ∀ c s, R s (M.poll c s)) (hstep : ∀ s t, M.step s = some t → R s t)
    {ms : List Move} {c d : Config S σ α} (h : M.run ms c = some d) : R c.state d.state := by
  induction ms generalizing c with
  | nil =>
      obtain rfl := Option.some.inj h
      exact hrefl c.state
  | cons m ms ih =>
      obtain ⟨e, he, hd⟩ := Option.bind_eq_some_iff.mp h
      refine htrans _ _ _ ?_ (ih hd)
      cases m with
      | machine =>
          obtain ⟨t, ht, rfl⟩ := M.move_machine he
          exact hstep c.state t ht
      | program =>
          obtain ⟨p, s, log⟩ := c
          cases p with
          | done a => exact nomatch he
          | access o k =>
              obtain rfl := Option.some.inj he
              exact haccess o s
          | wait w k =>
              obtain rfl := Option.some.inj he
              exact hpoll w s

/-- Let the machine take `n` moves of its own. -/
def steps : Nat → σ → Option σ
  | 0, s => some s
  | n + 1, s => (M.step s).bind (steps n)

/-- Some number of moves of the machine makes the wait on `c` succeed. -/
def CanExit (c : S.Cond) (s : σ) : Prop :=
  ∃ n s', M.steps n s = some s' ∧ M.exits c s' = true

theorem canExit_now {c : S.Cond} {s : σ} (h : M.exits c s = true) : M.CanExit c s :=
  ⟨0, s, rfl, h⟩

theorem canExit_step {c : S.Cond} {s t : σ} (h : M.step s = some t)
    (ht : M.CanExit c t) : M.CanExit c s := by
  obtain ⟨n, u, hu, hc⟩ := ht
  exact ⟨n + 1, u, by simp [steps, h, hu], hc⟩

/-- A machine that has nothing left to do leaves a failing wait failing. -/
theorem not_canExit_of_halted {c : S.Cond} {s : σ} (h : M.step s = none)
    (hc : M.exits c s = false) : ¬ M.CanExit c s := by
  intro hcase
  obtain ⟨n, s', hn, hs'⟩ := hcase
  cases n with
  | zero =>
      obtain rfl : s = s' := by simpa [steps] using hn
      rw [hc] at hs'
      exact Bool.noConfusion hs'
  | succ n => simp [steps, h] at hn

/-- The program sits in a wait loop that no moves of the machine can end. -/
def Stuck (c : Config S σ α) : Prop :=
  ∃ w k, c.prog = .wait w k ∧ ¬ M.CanExit w c.state

theorem stuck_of_halted {c : Config S σ α} {w : S.Cond} (hw : c.prog.awaiting = some w)
    (hs : M.step c.state = none) (he : M.exits w c.state = false) : M.Stuck c := by
  obtain ⟨p, s, log⟩ := c
  cases p with
  | done a => exact nomatch hw
  | access o k => exact nomatch hw
  | wait w' k =>
      obtain rfl := Option.some.inj hw
      exact ⟨w', k, rfl, M.not_canExit_of_halted hs he⟩

end Machine

/-- A condition on single moves, given where the program stands and the state of
the machine before the move. -/
abbrev Guard (S : Sig) (σ : Type) := Ctl S → σ → Move → Prop

namespace Machine

variable {S : Sig} {σ α : Type} (M : Machine S σ)

/-- Every move of the run from `c` meets `G`. -/
def Keeps (G : Guard S σ) : List Move → Config S σ α → Prop
  | [], _ => True
  | m :: ms, c => G c.prog.ctl c.state m ∧ ∀ d, M.move c m = some d → Keeps G ms d

/-- The machine moves only while the program sits in a wait loop that it cannot
leave yet. -/
def InTurn : Guard S σ := fun ctl s m =>
  m = .machine → ∃ c, ctl = .waiting c ∧ M.exits c s = false

/-- A test of the guard along a run. -/
def check (g : Ctl S → σ → Move → Bool) : List Move → Config S σ α → Bool
  | [], _ => true
  | m :: ms, c => g c.prog.ctl c.state m &&
      match M.move c m with
      | none => true
      | some d => check g ms d

theorem keeps_of_check {G : Guard S σ} {g : Ctl S → σ → Move → Bool}
    (hg : ∀ ctl s m, g ctl s m = true → G ctl s m) {ms : List Move} {c : Config S σ α}
    (h : M.check g ms c = true) : M.Keeps G ms c := by
  induction ms generalizing c with
  | nil => trivial
  | cons m ms ih =>
      obtain ⟨hnow, hrest⟩ := Bool.and_eq_true_iff.mp h
      refine ⟨hg _ _ _ hnow, fun d hd => ih ?_⟩
      rwa [hd] at hrest

theorem keeps_of_forall {G : Guard S σ} (h : ∀ ctl s m, G ctl s m) (ms : List Move)
    (c : Config S σ α) : M.Keeps G ms c := by
  induction ms generalizing c with
  | nil => trivial
  | cons m ms ih => exact ⟨h _ _ _, fun d _ => ih d⟩

/-- What the polls, the moves of the machine and the accesses of the program keep
holds before every move. -/
theorem keeps_of_only {P : S.Op → Prop} {I : σ → Prop}
    (haccess : ∀ o s, P o → I s → I (M.access o s).2)
    (hpoll : ∀ w s, I s → I (M.poll w s)) (hstep : ∀ s t, I s → M.step s = some t → I t)
    (ms : List Move) {c : Config S σ α} (hp : c.prog.Only P) (hs : I c.state) :
    M.Keeps (fun _ s _ => I s) ms c := by
  induction ms generalizing c with
  | nil => trivial
  | cons m ms ih =>
      refine ⟨hs, fun d hd => ?_⟩
      cases m with
      | machine =>
          obtain ⟨t, ht, rfl⟩ := M.move_machine hd
          exact ih hp (hstep c.state t hs ht)
      | program =>
          obtain ⟨p, s, log⟩ := c
          cases p with
          | done a => exact nomatch hd
          | access o k =>
              obtain rfl := Option.some.inj hd
              exact ih (hp.2 _) (haccess o s hp.1 hs)
          | wait w k =>
              obtain rfl := Option.some.inj hd
              refine ih ?_ (hpoll w s hs)
              show (if M.exits w s = true then k else .wait w k).Only P
              split
              · exact hp
              · exact hp

theorem Keeps.mono {G H : Guard S σ} (h : ∀ ctl s m, G ctl s m → H ctl s m) :
    ∀ {ms : List Move} {c : Config S σ α}, M.Keeps G ms c → M.Keeps H ms c
  | [], _, _ => trivial
  | _ :: _, _, hk => ⟨h _ _ _ hk.1, fun d hd => Keeps.mono h (hk.2 d hd)⟩

theorem keeps_append {G : Guard S σ} {ms ns : List Move} {c d : Config S σ α}
    (h : M.run ms c = some d) (hc : M.Keeps G ms c) (hd : M.Keeps G ns d) :
    M.Keeps G (ms ++ ns) c := by
  induction ms generalizing c with
  | nil =>
      obtain rfl : c = d := by simpa [run] using h
      exact hd
  | cons m ms ih =>
      refine ⟨hc.1, fun e he => ih ?_ (hc.2 e he)⟩
      simpa [run, he] using h

end Machine

end Polling
