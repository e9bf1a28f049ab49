/-
The START and STOP requests of the driver.

A register write requests START and STOP once.  A read requests STOP twice at its
end, once in `I2C_read_nack` and once in `I2C_stop`, and a burst read of no bytes
leaves its second START without a STOP.  So the requests alternate exactly when no
call is a read.
-/
import ImuFirmware.Polling.Trace
import ImuFirmware.I2C.StuckWait

namespace ImuFirmware

open Polling

inductive Request where
  | start
  | stop
  deriving DecidableEq, Repr

def Op.request : Op → Option Request
  | .generateStart => some .start
  | .generateStop => some .stop
  | _ => none

def requests (log : List Op) : List Request := log.filterMap Op.request

/-- Whether a transfer is open, unless the request comes at the wrong time. -/
def track : Bool → Request → Option Bool
  | false, .start => some true
  | true, .stop => some false
  | _, _ => none

def transferOpen (reqs : List Request) : Option Bool := reqs.foldlM track false

/-- The requests of one call. -/
def Call.requests : Call → List Request
  | .writeReg _ _ _ => [.start, .stop]
  | .readReg _ _ => [.start, .stop, .start, .stop, .stop]
  | .readMultiReg _ _ _ count =>
      if count.toNat = 0 then [.start, .stop, .start]
      else [.start, .stop, .start, .stop, .stop]

def Call.isWrite : Call → Bool
  | .writeReg _ _ _ => true
  | .readReg _ _ | .readMultiReg _ _ _ _ => false

/-- The requests alternate in every run of every initial part of the calls, and when
it returns the last START is followed by its STOP. -/
def Paired {δ : Type} [Device δ] (cs : List Call) (s : World δ) : Prop :=
  ∀ pre, pre <+: cs → ∀ ms c, (machine δ).run ms ⟨runCalls pre, s, []⟩ = some c →
    (transferOpen (requests c.log)).isSome = true ∧
      (c.result.isSome = true → transferOpen (requests c.log) = some false)

theorem requests_append (log : List Op) (o : Op) :
    requests (log ++ [o]) = requests log ++ o.request.toList := by
  unfold requests
  rw [List.filterMap_append]
  cases o <;> rfl

theorem transferOpen_append (l k : List Request) :
    transferOpen (l ++ k) = (transferOpen l).bind fun b => k.foldlM track b :=
  List.foldlM_append ..

/-- The log gains the requests `reqs`. -/
abbrev Gains (reqs : List Request) (l l' : List Op) : Prop :=
  requests l' = requests l ++ reqs

theorem emits_gains {α β : Type} (first : List Request) {rest : List Request}
    {p : Driver α} {f : α → Driver β} {l : List Op} (hp : ∀ l, Emits (Gains first l) p l)
    (hf : ∀ a l, Emits (Gains rest l) (f a) l) : Emits (Gains (first ++ rest) l) (p >>= f) l := by
  refine emits_seq (hp l) fun a l' hl' => emits_mono (fun l'' hl'' => ?_) (hf a l')
  rw [Gains, hl'', hl', List.append_assoc]

theorem emits_i2cStart (address direction : Byte) (l : List Op) :
    Emits (Gains [.start] l) (i2cStart address direction) l := by
  intro _ _
  have hreq : requests (l ++ [Op.generateStart] ++
      [Op.writeDr (addressByte address direction)]) = requests l ++ [.start] := by
    rw [requests_append, requests_append]
    simp [Op.request]
  show Emits _ (if _ then _ else _) _
  split
  · exact hreq
  · split
    · exact hreq
    · exact hreq

theorem emits_i2cWrite (data : Byte) (l : List Op) : Emits (Gains [] l) (i2cWrite data) l := by
  intro _
  show requests _ = _
  rw [requests_append]
  rfl

theorem emits_i2cStop (l : List Op) : Emits (Gains [.stop] l) i2cStop l := by
  intro _
  exact requests_append l .generateStop

theorem emits_i2cReadAck (l : List Op) : Emits (Gains [] l) i2cReadAck l := by
  intro _ _
  show requests _ = _
  rw [requests_append, requests_append]
  simp [Op.request]

theorem emits_i2cReadNack (l : List Op) : Emits (Gains [.stop] l) i2cReadNack l := by
  intro _ _ _
  show requests _ = _
  rw [requests_append, requests_append, requests_append]
  simp [Op.request]

theorem emits_store (a : Nat) (b : Byte) (l : List Op) : Emits (Gains [] l) (store a b) l := by
  intro _
  show requests _ = _
  rw [requests_append]
  rfl

/-- The loop requests STOP in its last round and nowhere else. -/
theorem emits_readMultiLoop {buf count i : Nat} (hi : i < count) (l : List Op) :
    Emits (Gains [.stop, .stop] l) (readMultiLoop buf count i) l := by
  induction hk : count - i generalizing i l with
  | zero => omega
  | succ k ih =>
      by_cases hlast : i + 1 = count
      · rw [readMultiLoop_last hlast]
        exact emits_gains [.stop] emits_i2cReadNack fun b l =>
          emits_gains [] (emits_store _ b) fun _ l => emits_i2cStop l
      · rw [readMultiLoop_more (by omega)]
        exact emits_gains [] emits_i2cReadAck fun b l =>
          emits_gains [] (emits_store _ b) fun _ l => ih (by omega) l (by omega)

theorem emits_call (call : Call) (l : List Op) :
    Emits (Gains call.requests l) call.prog l := by
  have hdone : ∀ {r : Option Byte} l, Emits (Gains [] l) (pure r : Driver (Option Byte)) l :=
    fun {r} l => (List.append_nil (requests l)).symm
  have hpointer : ∀ (reqs : List Request) {α : Type} {device register : Byte} {k : Driver α} l,
      (∀ l, Emits (Gains reqs l) k l) →
      Emits (Gains ([.start, .stop, .start] ++ reqs) l) (do
        i2cStart (device <<< 1) i2cDirectionTransmitter
        i2cWrite register
        i2cStop
        i2cStart (device <<< 1) i2cDirectionReceiver
        k) l := fun _ _ _ _ _ l hk =>
    emits_gains [.start] (emits_i2cStart _ _) fun _ l =>
      emits_gains [] (emits_i2cWrite _) fun _ l =>
        emits_gains [.stop] emits_i2cStop fun _ l =>
          emits_gains [.start] (emits_i2cStart _ _) fun _ l => hk l
  cases call with
  | writeReg device register data =>
      refine emits_gains [.start, .stop] (fun l => ?_) fun _ l => hdone l
      exact emits_gains [.start] (emits_i2cStart _ _) fun _ l =>
        emits_gains [] (emits_i2cWrite _) fun _ l =>
          emits_gains [] (emits_i2cWrite _) fun _ l => emits_i2cStop l
  | readReg device register =>
      refine emits_gains [.start, .stop, .start, .stop, .stop] (fun l => ?_)
        fun _ l => hdone l
      refine hpointer [.stop, .stop] l fun l => ?_
      exact emits_gains [.stop] emits_i2cReadNack fun _ l =>
        emits_gains [.stop] emits_i2cStop fun _ l =>
          (List.append_nil (requests l)).symm
  | readMultiReg device register buf count =>
      by_cases hcount : count.toNat = 0
      · rw [Call.requests, if_pos hcount]
        refine emits_gains [.start, .stop, .start] (fun l => ?_) fun _ l => hdone l
        refine hpointer [] l fun l => ?_
        rw [readMultiLoop_done (by omega)]
        exact (List.append_nil (requests l)).symm
      · rw [Call.requests, if_neg hcount]
        refine emits_gains [.start, .stop, .start, .stop, .stop] (fun l => ?_)
          fun _ l => hdone l
        exact hpointer [.stop, .stop] l fun l =>
          emits_readMultiLoop (by omega) l

theorem emits_runCalls (cs : List Call) (l : List Op) :
    Emits (Gains (cs.flatMap Call.requests) l) (runCalls cs) l := by
  induction cs generalizing l with
  | nil => exact (List.append_nil (requests l)).symm
  | cons call cs ih =>
      refine emits_gains call.requests (emits_call call) fun r l => ?_
      have hdone : ∀ rs l, Emits (Gains [] l) (pure (r :: rs) : Driver _) l :=
        fun _ l => (List.append_nil (requests l)).symm
      have hrest := emits_gains (cs.flatMap Call.requests) (l := l) ih hdone
      rw [List.append_nil] at hrest
      exact hrest

variable {δ : Type} [Device δ] {A : BitVec 7 → Prop} {s : World δ}

theorem emits_start (cs : List Call) :
    Emits (fun l => requests l = cs.flatMap Call.requests) (runCalls cs) [] :=
  emits_mono (fun _ h => h) (emits_runCalls cs [])

/-- What a run that returns has requested does not depend on the run. -/
theorem requests_of_returned {cs : List Call} {ms : List Move}
    {c : Config sig (World δ) (List (Option Byte))}
    (hrun : (machine δ).run ms ⟨runCalls cs, s, []⟩ = some c) (hret : c.result.isSome = true) :
    requests c.log = cs.flatMap Call.requests :=
  emits_result (emits_start cs) hrun hret

/-! ## Register writes -/

theorem transferOpen_writes {cs : List Call} (h : ∀ call ∈ cs, call.isWrite = true) :
    transferOpen (cs.flatMap Call.requests) = some false := by
  induction cs with
  | nil => rfl
  | cons call cs ih =>
      have hrest := ih fun call' h' => h call' (List.mem_cons_of_mem call h')
      have hcall := h call (List.mem_cons_self ..)
      cases call with
      | writeReg device register data =>
          rw [List.flatMap_cons, transferOpen_append]
          exact hrest
      | readReg device register => exact nomatch hcall
      | readMultiReg device register buf count => exact nomatch hcall

theorem alternates_of_append (l : List Op) (o : Op)
    (h : (transferOpen (requests (l ++ [o]))).isSome = true) :
    (transferOpen (requests l)).isSome = true := by
  rw [requests_append, transferOpen_append] at h
  cases hl : transferOpen (requests l) with
  | none =>
      rw [hl] at h
      exact nomatch h
  | some b => rfl

theorem paired_of_writes {cs : List Call} (h : ∀ call ∈ cs, call.isWrite = true) :
    Paired cs s := by
  intro pre hpre ms c hrun
  have hopen := transferOpen_writes fun call hc => h call (hpre.subset hc)
  constructor
  · have hemits := emits_run (emits_start pre) hrun
    refine emits_now (Q := fun l => (transferOpen (requests l)).isSome = true)
      alternates_of_append (emits_mono (fun l hl => ?_) hemits)
    rw [hl, hopen]
    rfl
  · intro hret
    rw [requests_of_returned hrun hret, hopen]

/-! ## Reads -/

theorem transferOpen_read {call : Call} (h : call.isWrite = false) :
    transferOpen call.requests ≠ some false := by
  cases call with
  | writeReg device register data => exact nomatch h
  | readReg device register => exact nofun
  | readMultiReg device register buf count =>
      rw [Call.requests]
      split <;> decide

theorem canExit_anyCall (hput : ∀ b (d : δ), (Device.put b d).isSome = true) {call : Call}
    (ha : A (call.device.setWidth 7)) (hs : Settled A (Present A) s) :
    wp (machine δ) (machine δ).InTurn (machine δ).CanExit (fun _ _ => True) call.prog s := by
  by_cases hcount : call.asksSome
  · exact wp_mono (fun _ _ _ => trivial) (canExit_call hput orderly_inTurn ha hcount hs)
  · cases call with
    | writeReg device register data => exact absurd trivial hcount
    | readReg device register => exact absurd trivial hcount
    | readMultiReg device register buf count =>
        have hzero : count.toNat ≤ 0 := Nat.not_lt.mp hcount
        refine wp_seq (R := fun _ _ => True) ?_ fun _ _ _ => trivial
        refine canExit_pointer serves_present serves_present ha (takes_present hput ha) hs
          fun _ _ => ?_
        rw [readMultiLoop_done hzero]
        trivial

/-- Calls that ask for something, and one more of any kind, can be run to the end. -/
theorem canExit_runCalls_concat (hput : ∀ b (d : δ), (Device.put b d).isSome = true)
    {cs : List Call} {call : Call} (ha : ∀ c ∈ cs ++ [call], A (c.device.setWidth 7))
    (hc : ∀ c ∈ cs, c.asksSome) (hs : Settled A (Present A) s) :
    wp (machine δ) (machine δ).InTurn (machine δ).CanExit (fun _ _ => True)
      (runCalls (cs ++ [call])) s := by
  induction cs generalizing s with
  | nil =>
      exact wp_seq (canExit_anyCall hput (ha call (List.mem_cons_self ..)) hs)
        fun _ _ _ => trivial
  | cons c cs ih =>
      refine wp_seq (canExit_call hput orderly_inTurn (ha c (List.mem_cons_self ..))
        (hc c (List.mem_cons_self ..)) hs) fun r s₁ h₁ => ?_
      exact wp_seq (ih (fun c' h => ha c' (List.mem_cons_of_mem c h))
        (fun c' h => hc c' (List.mem_cons_of_mem c h)) h₁) fun _ _ _ => trivial

theorem asksSome_of_isWrite {call : Call} (h : call.isWrite = true) : call.asksSome := by
  cases call with
  | writeReg device register data => trivial
  | readReg device register => exact nomatch h
  | readMultiReg device register buf count => exact nomatch h

/-- The first read breaks the pairing. -/
theorem not_paired_of_read (hput : ∀ b (d : δ), (Device.put b d).isSome = true)
    (cs rest : List Call) {call : Call} (hcs : ∀ c ∈ cs, c.isWrite = true)
    (hcall : call.isWrite = false)
    (ha : ∀ c ∈ cs ++ call :: rest, A (c.device.setWidth 7)) (hs : Settled A (Present A) s) :
    ¬ Paired (cs ++ call :: rest) s := by
  intro hpaired
  have hpre : cs ++ [call] <+: cs ++ call :: rest := ⟨rest, by simp⟩
  obtain ⟨ms, rs, t, log, hrun, -⟩ := wp_runs_out []
    (canExit_runCalls_concat hput (fun c hc => ha c (hpre.subset hc))
      (fun c hc => asksSome_of_isWrite (hcs c hc)) hs)
  have hclosed := (hpaired (cs ++ [call]) hpre ms _ hrun).2 rfl
  rw [requests_of_returned hrun rfl, List.flatMap_append, transferOpen_append,
    transferOpen_writes hcs, List.flatMap_singleton] at hclosed
  exact transferOpen_read hcall hclosed

/-- On devices that acknowledge everything the requests of a sequence of calls are
paired if and only if every call is a register write. -/
theorem paired_iff_writes (hput : ∀ b (d : δ), (Device.put b d).isSome = true)
    {cs : List Call} {devs : BitVec 7 → Option δ} {m : Nat → Byte}
    (hdevs : ∀ call ∈ cs, (devs (call.device.setWidth 7)).isSome = true) :
    Paired cs (World.boot devs m) ↔ ∀ call ∈ cs, call.isWrite = true := by
  constructor
  · intro hpaired
    by_contra hread
    obtain ⟨ws, call, rest, rfl, hws, hcall⟩ : ∃ ws call rest, cs = ws ++ call :: rest ∧
        (∀ c ∈ ws, c.isWrite = true) ∧ call.isWrite = false := by
      cases hfind : cs.find? fun c => !c.isWrite with
      | none =>
          refine absurd (fun call hc => ?_) hread
          have h := List.find?_eq_none.mp hfind call hc
          rwa [Bool.not_eq_true', Bool.not_eq_false] at h
      | some call =>
          obtain ⟨hcall, ws, rest, hsplit, hws⟩ := List.find?_eq_some_iff_append.mp hfind
          refine ⟨ws, call, rest, hsplit, fun c hc => ?_, by simpa using hcall⟩
          simpa using hws c hc
    exact not_paired_of_read hput _ _ hws hcall hdevs
      (settled_boot (A := fun a => (devs a).isSome = true) m fun _ ha => ha) hpaired
  · exact paired_of_writes

theorem paired_iff_writes_counting :
    Paired [.writeReg 0x53#8 0x2D#8 0x08#8, .writeReg 0x53#8 0x38#8 0x84#8] countingBus ↔
      ∀ call ∈ [Call.writeReg 0x53#8 0x2D#8 0x08#8, .writeReg 0x53#8 0x38#8 0x84#8],
        call.isWrite = true :=
  paired_iff_writes RegisterFile.put_isSome (by decide)

/-- The surplus STOP of a read, and the missing one of a read of no bytes. -/
theorem reads_not_paired :
    (∃ ms c, (machine RegisterFile).run ms
        ⟨runCalls [.readReg 0x53#8 0x00#8], countingBus, []⟩ = some c ∧
      requests c.log = [.start, .stop, .start, .stop, .stop]) ∧
    ¬ Paired [.readReg 0x53#8 0x00#8] countingBus ∧
    ¬ Paired [.readMultiReg 0x53#8 0x00#8 0 0#8] countingBus := by
  have hpresent : Present (· = 0x53#7) countingBus.devs := by
    intro a ha
    subst ha
    rfl
  have hboot := settled_boot countingBus.mem hpresent
  refine ⟨?_, ?_, ?_⟩
  · have hrun : ((machine RegisterFile).run
        (pointerMoves ++ [.program, .program, .machine, .program, .program, .program])
        ⟨runCalls [.readReg 0x53#8 0x00#8], countingBus, []⟩).map (fun c => requests c.log) =
          some [.start, .stop, .start, .stop, .stop] := by
      decide +kernel
    obtain ⟨c, hc, hreq⟩ := Option.map_eq_some_iff.mp hrun
    exact ⟨_, c, hc, hreq⟩
  · exact not_paired_of_read RegisterFile.put_isSome [] [] nofun rfl (by decide) hboot
  · exact not_paired_of_read RegisterFile.put_isSome [] [] nofun rfl (by decide) hboot

end ImuFirmware
