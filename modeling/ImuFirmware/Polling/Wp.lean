/-
Weakest preconditions for polling programs under an interfering machine.

`wp M G W Q p s` says that from `s`, along every interleaving whose moves meet the
guard `G`, the program `p` sits in a wait loop on `c` only in states where `W c`
holds, and returns only in states where `Q` does.  It recurses on the program, and
the machine's moves enter through the closure of one relation per control point,
so a proof supplies one invariant per control point and shows that the machine
keeps it.
-/
import ImuFirmware.Polling.Program

namespace Polling

open Relation

section

variable {S : Sig} {σ : Type} (M : Machine S σ) (G : Guard S σ)

/-- A move of the machine while the program is about to make the access `o`. -/
def IdleStep (o : S.Op) (s t : σ) : Prop :=
  G (.accessing o) s .machine ∧ M.step s = some t

/-- A move of the machine, or a poll that fails, while the program waits. -/
def WaitStep (c : S.Cond) (s t : σ) : Prop :=
  (G (.waiting c) s .machine ∧ M.step s = some t) ∨
    (G (.waiting c) s .program ∧ M.exits c s = false ∧ t = M.poll c s)

def wp {α : Type} (W : S.Cond → σ → Prop) (Q : α → σ → Prop) : Prog S α → σ → Prop
  | .done a, s => Q a s
  | .access o k, s => ∀ t, ReflTransGen (IdleStep M G o) s t →
      G (.accessing o) t .program → wp W Q (k (M.access o t).1) (M.access o t).2
  | .wait c k, s => ∀ t, ReflTransGen (WaitStep M G c) s t →
      W c t ∧ (G (.waiting c) t .program → M.exits c t = true → wp W Q k (M.poll c t))

end

section

variable {S : Sig} {σ α β : Type} {M : Machine S σ} {G : Guard S σ}
  {W : S.Cond → σ → Prop}

theorem wp_mono {Q R : α → σ → Prop} (h : ∀ a s, Q a s → R a s) {p : Prog S α} {s : σ}
    (hp : wp M G W Q p s) : wp M G W R p s := by
  induction p generalizing s with
  | done a => exact h a s hp
  | access o k ih => exact fun t ht hg => ih _ (hp t ht hg)
  | wait c k ih => exact fun t ht => ⟨(hp t ht).1, fun hg he => ih ((hp t ht).2 hg he)⟩

theorem wp_bind {Q : β → σ → Prop} {p : Prog S α} {f : α → Prog S β} {s : σ}
    (h : wp M G W (fun a t => wp M G W Q (f a) t) p s) : wp M G W Q (p >>= f) s := by
  induction p generalizing s with
  | done a => exact h
  | access o k ih => exact fun t ht hg => ih _ (h t ht hg)
  | wait c k ih => exact fun t ht => ⟨(h t ht).1, fun hg he => ih ((h t ht).2 hg he)⟩

/-- Sequencing: the postcondition of the first program starts the second. -/
theorem wp_seq {R : α → σ → Prop} {Q : β → σ → Prop} {p : Prog S α} {f : α → Prog S β}
    {s : σ} (hp : wp M G W R p s) (hf : ∀ a t, R a t → wp M G W Q (f a) t) :
    wp M G W Q (p >>= f) s :=
  wp_bind (wp_mono hf hp)

theorem invariant_closure {r : σ → σ → Prop} {I : σ → Prop}
    (h : ∀ s t, I s → r s t → I t) {s t : σ} (hs : I s) (hr : ReflTransGen r s t) : I t := by
  induction hr with
  | refl => exact hs
  | tail _ hstep ih => exact h _ _ ih hstep

/-- The rule of one access: an invariant the machine keeps while the program is
about to make it. -/
theorem wp_access {Q : α → σ → Prop} {o : S.Op} {k : S.Ret o → Prog S α} {s : σ}
    (I : σ → Prop) (hs : I s)
    (hstep : ∀ s t, I s → G (.accessing o) s .machine → M.step s = some t → I t)
    (hk : ∀ t, I t → G (.accessing o) t .program →
      wp M G W Q (k (M.access o t).1) (M.access o t).2) :
    wp M G W Q (.access o k) s :=
  fun t ht => hk t (invariant_closure (fun s t hs h => hstep s t hs h.1 h.2) hs ht)

/-- The rule of one wait loop: an invariant that the machine and the failing polls
keep, under which the wait is as `W` asks. -/
theorem wp_wait {Q : α → σ → Prop} {c : S.Cond} {k : Prog S α} {s : σ}
    (I : σ → Prop) (hs : I s)
    (hstep : ∀ s t, I s → G (.waiting c) s .machine → M.step s = some t → I t)
    (hpoll : ∀ s, I s → M.exits c s = false → I (M.poll c s))
    (hW : ∀ s, I s → W c s)
    (hk : ∀ t, I t → M.exits c t = true → wp M G W Q k (M.poll c t)) :
    wp M G W Q (.wait c k) s := by
  intro t ht
  have hI : I t := by
    refine invariant_closure (fun u v hu huv => ?_) hs ht
    rcases huv with huv | ⟨-, he, rfl⟩
    · exact hstep u v hu huv.1 huv.2
    · exact hpoll u hu he
  exact ⟨hW t hI, fun _ he => hk t hI he⟩

theorem wp_op {Q : S.Ret o → σ → Prop} {s : σ} (I : σ → Prop) (hs : I s)
    (hstep : ∀ s t, I s → G (.accessing o) s .machine → M.step s = some t → I t)
    (hk : ∀ t, I t → G (.accessing o) t .program → Q (M.access o t).1 (M.access o t).2) :
    wp M G W Q (Prog.op o) s :=
  wp_access I hs hstep hk

theorem wp_await {Q : Unit → σ → Prop} {c : S.Cond} {s : σ} (I : σ → Prop) (hs : I s)
    (hstep : ∀ s t, I s → G (.waiting c) s .machine → M.step s = some t → I t)
    (hpoll : ∀ s, I s → M.exits c s = false → I (M.poll c s))
    (hW : ∀ s, I s → W c s)
    (hk : ∀ t, I t → M.exits c t = true → Q () (M.poll c t)) :
    wp M G W Q (Prog.await c) s :=
  wp_wait I hs hstep hpoll hW hk

theorem wp_move {Q : α → σ → Prop} {c d : Config S σ α} {m : Move}
    (hc : wp M G W Q c.prog c.state) (hg : G c.prog.ctl c.state m)
    (hm : M.move c m = some d) : wp M G W Q d.prog d.state := by
  obtain ⟨p, s, log⟩ := c
  cases p with
  | done a => simp [Machine.move] at hm
  | access o k =>
      cases m with
      | program =>
          obtain rfl := Option.some.inj hm
          exact hc s .refl hg
      | machine =>
          obtain ⟨t, ht, rfl⟩ := Option.map_eq_some_iff.mp hm
          exact fun u hu => hc u (.head ⟨hg, ht⟩ hu)
  | wait w k =>
      cases m with
      | program =>
          obtain rfl := Option.some.inj hm
          by_cases he : M.exits w s = true
          · simp only [he, if_true]
            exact (hc s .refl).2 hg he
          · rw [Bool.not_eq_true] at he
            simp only [he, Bool.false_eq_true, if_false]
            exact fun u hu => hc u (.head (Or.inr ⟨hg, he, rfl⟩) hu)
      | machine =>
          obtain ⟨t, ht, rfl⟩ := Option.map_eq_some_iff.mp hm
          exact fun u hu => hc u (.head (Or.inl ⟨hg, ht⟩) hu)

/-- Every guarded run keeps the weakest precondition. -/
theorem wp_run {Q : α → σ → Prop} {ms : List Move} {c d : Config S σ α}
    (hc : wp M G W Q c.prog c.state) (hg : M.Keeps G ms c) (hr : M.run ms c = some d) :
    wp M G W Q d.prog d.state := by
  induction ms generalizing c with
  | nil =>
      obtain rfl := Option.some.inj hr
      exact hc
  | cons m ms ih =>
      obtain ⟨e, he, hd⟩ := Option.bind_eq_some_iff.mp hr
      exact ih (wp_move hc hg.1 he) (hg.2 e he) hd

theorem wp_returns {Q : α → σ → Prop} {ms : List Move} {p : Prog S α} {s t : σ} {a : α}
    (hp : wp M G W Q p s) (hg : M.Keeps G ms ⟨p, s, []⟩) (hr : M.Returns ms p s a t) :
    Q a t := by
  obtain ⟨log, hrun⟩ := M.returns_iff.mp hr
  exact wp_run (c := ⟨p, s, []⟩) hp hg hrun

/-- Where every wait can be left, no guarded run gets stuck. -/
theorem not_stuck_of_wp {Q : α → σ → Prop} {ms : List Move} {c d : Config S σ α}
    (hc : wp M G M.CanExit Q c.prog c.state) (hg : M.Keeps G ms c)
    (hr : M.run ms c = some d) : ¬ M.Stuck d := by
  intro hcase
  obtain ⟨w, k, hw, hstuck⟩ := hcase
  have hd := wp_run hc hg hr
  rw [hw] at hd
  exact hstuck (hd d.state .refl).1

end

section

variable {S : Sig} {σ α : Type} {M : Machine S σ}

/-- Waiting in turn: the machine moves until the wait can be left, then the program
leaves it. -/
theorem wait_in_turn {c : S.Cond} {n : Nat} {s s' : σ} (k : Prog S α) (log : List S.Op)
    (hn : M.steps n s = some s') (he : M.exits c s' = true) :
    ∃ ms t, M.run ms ⟨.wait c k, s, log⟩ = some ⟨k, M.poll c t, log⟩ ∧
      M.Keeps M.InTurn ms ⟨.wait c k, s, log⟩ ∧ M.exits c t = true ∧
      ReflTransGen (WaitStep M M.InTurn c) s t := by
  induction n generalizing s with
  | zero =>
      obtain rfl := Option.some.inj hn
      refine ⟨[.program], s, ?_, ?_, he, .refl⟩
      · simp [Machine.run, Machine.move, he]
      · exact ⟨fun h => Move.noConfusion h, fun _ _ => trivial⟩
  | succ n ih =>
      by_cases hnow : M.exits c s = true
      · refine ⟨[.program], s, ?_, ?_, hnow, .refl⟩
        · simp [Machine.run, Machine.move, hnow]
        · exact ⟨fun h => Move.noConfusion h, fun _ _ => trivial⟩
      · rw [Bool.not_eq_true] at hnow
        obtain ⟨u, hu, hn'⟩ := Option.bind_eq_some_iff.mp hn
        obtain ⟨ms, t, hrun, hkeep, ht, hreach⟩ := ih hn'
        have hturn : M.InTurn (.waiting c) s .machine := fun _ => ⟨c, rfl, hnow⟩
        refine ⟨.machine :: ms, t, ?_, ⟨hturn, fun d hd => ?_⟩, ht,
          .head (Or.inl ⟨hturn, hu⟩) hreach⟩
        · simpa [Machine.run, Machine.move, hu] using hrun
        · obtain rfl : ⟨.wait c k, u, log⟩ = d := by simpa [Machine.move, hu] using hd
          exact hkeep

/-- Where every wait can be left, the program can be run to its end with the
machine moving in turn. -/
theorem wp_runs_out {Q : α → σ → Prop} {p : Prog S α} {s : σ} (log : List S.Op)
    (hp : wp M M.InTurn M.CanExit Q p s) :
    ∃ ms a t log', M.run ms ⟨p, s, log⟩ = some ⟨.done a, t, log'⟩ ∧
      M.Keeps M.InTurn ms ⟨p, s, log⟩ ∧ Q a t := by
  induction p generalizing s log with
  | done a => exact ⟨[], a, s, log, rfl, trivial, hp⟩
  | access o k ih =>
      have hturn : M.InTurn (.accessing o) s .program := fun h => Move.noConfusion h
      obtain ⟨ms, a, t, log', hrun, hkeep, hQ⟩ := ih _ (log ++ [o]) (hp s .refl hturn)
      refine ⟨.program :: ms, a, t, log', hrun, ⟨hturn, fun d hd => ?_⟩, hQ⟩
      obtain rfl := Option.some.inj hd
      exact hkeep
  | wait c k ih =>
      obtain ⟨n, s', hn, he⟩ := (hp s .refl).1
      obtain ⟨ms, t, hrun, hkeep, ht, hreach⟩ := wait_in_turn k log hn he
      have hk := (hp t hreach).2 (fun h => Move.noConfusion h) ht
      obtain ⟨ns, a, u, log', hrun', hkeep', hQ⟩ := ih log hk
      refine ⟨ms ++ ns, a, u, log', ?_, M.keeps_append hrun hkeep hkeep', hQ⟩
      rw [Machine.run_append, hrun]
      exact hrun'

/-- A program without wait loops runs to its end in turn. -/
theorem wp_waitFree {p : Prog S α} {s : σ} (hp : p.WaitFree) :
    wp M M.InTurn M.CanExit (fun _ _ => True) p s := by
  induction p generalizing s with
  | done a => trivial
  | access o k ih => exact fun t _ _ => ih _ (hp _)
  | wait c k ih => exact hp.elim

theorem wp_finishes {Q : α → σ → Prop} {p : Prog S α} {s : σ}
    (hp : wp M M.InTurn M.CanExit Q p s) :
    ∃ ms a t, M.Returns ms p s a t ∧ M.Keeps M.InTurn ms ⟨p, s, []⟩ ∧ Q a t := by
  obtain ⟨ms, a, t, log, hrun, hkeep, hQ⟩ := wp_runs_out [] hp
  exact ⟨ms, a, t, M.returns_iff.mpr ⟨log, hrun⟩, hkeep, hQ⟩

end

end Polling
