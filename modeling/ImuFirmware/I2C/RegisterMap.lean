/-
The register-level driver refines a map of registers.

`RegisterMap` says what the three register functions are for: a write changes one
register of one device, and a read returns registers in order and changes none.
Every sequence of calls on present devices computes it, in every run in which the
bytes of a read complete in the wait loops that are there for them, and there is
such a run.
-/
import ImuFirmware.I2C.StuckWait

namespace ImuFirmware

open Polling

/-- The registers of every device, the memory, and the bytes read over the bus with
their acknowledgements. -/
structure RegisterMap where
  regs : BitVec 7 → Byte → Byte
  mem : Nat → Byte
  clocked : List (Byte × Bool)

/-- The bytes of a burst read: all acknowledged but the last. -/
def RegisterMap.burst (A : RegisterMap) (a : BitVec 7) (register : Byte) (count : Nat) :
    List (Byte × Bool) :=
  (List.range count).map fun i =>
    (A.regs a (register + BitVec.ofNat 8 i), decide (i + 1 < count))

def Call.spec : Call → RegisterMap → Option Byte × RegisterMap
  | .writeReg device register data, A =>
      (none, { A with
        regs := Function.update A.regs (device.setWidth 7)
          (Function.update (A.regs (device.setWidth 7)) register data) })
  | .readReg device register, A =>
      (some (A.regs (device.setWidth 7) register),
        { A with clocked := A.clocked ++ A.burst (device.setWidth 7) register 1 })
  | .readMultiReg device register buf count, A =>
      (none, { A with
        mem := fun p =>
          if buf ≤ p ∧ p < buf + count.toNat then
            A.regs (device.setWidth 7) (register + BitVec.ofNat 8 (p - buf))
          else A.mem p
        clocked := A.clocked ++ A.burst (device.setWidth 7) register count.toNat })

def specCalls : List Call → RegisterMap → List (Option Byte) × RegisterMap
  | [], A => ([], A)
  | c :: cs, A => ((c.spec A).1 :: (specCalls cs (c.spec A).2).1, (specCalls cs (c.spec A).2).2)

/-- Between two calls the registers of the devices, the memory and the bus log are
those of the map, and there are devices at the addresses `P`. -/
structure Refines (P : BitVec 7 → Prop) (A : RegisterMap) (s : World RegisterFile) :
    Prop where
  quiet : Quiet s.devs A.mem A.clocked s
  present : ∀ a, (s.devs a).isSome = true ↔ P a
  regs : ∀ a d, s.devs a = some d → d.regs = A.regs a

/-- While a device is sending, a byte completes only in a wait loop that the driver
cannot leave yet. -/
def OwnWait {δ : Type} : Guard sig (World δ) := fun ctl s move =>
  move = .machine → ∀ a, s.phase = .receiver a → ∃ c, ctl = .waiting c ∧ s.exits c = false

theorem ownWait_paced {δ : Type} (n count : Nat) : Paced (δ := δ) n count OwnWait :=
  fun _ _ hg a hp => Or.inr (hg rfl a hp)

theorem inTurn_ownWait {δ : Type} [Device δ] (ctl : Ctl sig) (s : World δ) (move : Move)
    (h : (machine δ).InTurn ctl s move) : OwnWait ctl s move :=
  fun hm _ _ => h hm

variable {P : BitVec 7 → Prop} {A : RegisterMap} {s t : World RegisterFile}
  {D : BitVec 7 → Option RegisterFile} {m : Nat → Byte} {c : List (Byte × Bool)}

/-- A device that was there is replaced by one with other contents. -/
theorem Refines.of_update {d : RegisterFile} {a : BitVec 7} (hs : Refines P A s)
    (hpresent : (s.devs a).isSome = true)
    (ht : Quiet (Function.update s.devs a (some d)) m c t) :
    Refines P ⟨Function.update A.regs a d.regs, m, c⟩ t := by
  refine ⟨?_, ?_, ?_⟩
  · rw [ht.devs]
    exact ht
  · intro b
    rw [ht.devs]
    by_cases hb : b = a
    · rw [hb, Function.update_self, ← hs.present a, hpresent]
      rfl
    · rw [Function.update_of_ne hb]
      exact hs.present b
  · intro b e he
    rw [ht.devs] at he
    show e.regs = Function.update A.regs a d.regs b
    by_cases hb : b = a
    · subst hb
      rw [Function.update_self] at he ⊢
      rw [Option.some.inj he]
    · rw [Function.update_of_ne hb] at he ⊢
      exact hs.regs b e he

/-- Reading leaves the registers as they are. -/
theorem Refines.of_advance {d : RegisterFile} {register : Byte} {n : Nat} {a : BitVec 7}
    (hs : Refines P A s) (hd : s.devs a = some d)
    (ht : Quiet (Function.update s.devs a (some (advance ⟨d.regs, register, false⟩ n))) m c t) :
    Refines P ⟨A.regs, m, c⟩ t := by
  have hpresent : (s.devs a).isSome = true := by rw [hd]; rfl
  have h := hs.of_update hpresent ht
  rwa [RegisterFile.advance_eq, hs.regs a d hd, Function.update_eq_self] at h

theorem exactLog_eq {δ : Type} [Device δ] (d : δ) {count : Nat} (hcount : 0 < count) :
    exactLog d count =
      (List.range count).map fun i => (stream d i, decide (i + 1 < count)) := by
  obtain ⟨n, rfl⟩ : ∃ n, count = n + 1 := ⟨count - 1, by omega⟩
  have hlast : decide (n + 1 < n + 1) = false := decide_eq_false (Nat.lt_irrefl _)
  rw [exactLog, Nat.add_sub_cancel, List.range_succ, List.map_append, List.map_singleton, hlast,
    taken, List.map_map]
  congr 1
  refine List.map_congr_left fun i hi => ?_
  have hlt : i + 1 < n + 1 := by
    have := List.mem_range.mp hi
    omega
  rw [decide_eq_true hlt]
  rfl

theorem burst_eq (hs : Refines P A s) {a : BitVec 7} {d : RegisterFile} {register : Byte}
    {count : Nat} (hd : s.devs a = some d) (hcount : 0 < count) :
    exactLog (⟨d.regs, register, false⟩ : RegisterFile) count = A.burst a register count := by
  rw [exactLog_eq _ hcount, RegisterMap.burst, ← hs.regs a d hd]
  refine List.map_congr_left fun i _ => ?_
  rw [RegisterFile.stream_eq]

theorem writeBytes_eq {δ : Type} [Device δ] (d : δ) (m : Nat → Byte) (buf count : Nat) :
    writeBytes m buf (taken d count) = fun p =>
      if buf ≤ p ∧ p < buf + count then stream d (p - buf) else m p := by
  funext p
  by_cases hp : buf ≤ p ∧ p < buf + count
  · have hlt : p - buf < count := by omega
    rw [if_pos hp, ← writeBytes_taken d m buf hlt]
    congr 1
    omega
  · rw [if_neg hp, writeBytes]
    split
    case isFalse => rfl
    case isTrue hle =>
      have hlen : (taken d count).length ≤ p - buf := by
        rw [length_taken]
        omega
      rw [List.getElem?_eq_none hlen]
      rfl

/-- One call computes its specification. -/
theorem wp_call {call : Call} (hs : Refines P A s) (hcount : call.asksSome) :
    wp (machine RegisterFile) OwnWait anyWait
      (fun r t => r = (call.spec A).1 ∧ Refines P (call.spec A).2 t) call.prog s := by
  cases call with
  | writeReg device register data =>
      refine wp_seq (wp_i2cWriteReg hs.quiet) fun _ t ⟨d, d', hd, hd', ht⟩ => ⟨rfl, ?_⟩
      rw [RegisterFile.written_eq] at hd'
      obtain rfl := Option.some.inj hd'
      have h := hs.of_update (by rw [hd]; rfl) ht
      rwa [hs.regs _ d hd] at h
  | readReg device register =>
      refine wp_seq (wp_i2cReadReg (ownWait_paced _ _) hs.quiet)
        fun b t ⟨d, d', hd, hd', hb, ht⟩ => ?_
      rw [RegisterFile.pointed_eq] at hd'
      obtain rfl := Option.some.inj hd'
      rw [burst_eq hs hd Nat.one_pos] at ht
      refine ⟨?_, hs.of_advance hd ht⟩
      rw [hb, RegisterFile.stream_eq, hs.regs _ d hd]
      simp [Call.spec]
  | readMultiReg device register buf count =>
      refine wp_seq (wp_i2cReadMultiReg hcount (ownWait_paced _ _) hs.quiet)
        fun _ t ⟨d, d', hd, hd', ht⟩ => ⟨rfl, ?_⟩
      rw [RegisterFile.pointed_eq] at hd'
      obtain rfl := Option.some.inj hd'
      rw [burst_eq hs hd hcount, writeBytes_eq] at ht
      simp only [RegisterFile.stream_eq, hs.regs _ d hd] at ht
      exact hs.of_advance hd (by rw [hs.regs _ d hd]; exact ht)

theorem wp_runCalls_refines {cs : List Call} (hs : Refines P A s)
    (hcount : ∀ call ∈ cs, call.asksSome) :
    wp (machine RegisterFile) OwnWait anyWait
      (fun rs t => rs = (specCalls cs A).1 ∧ Refines P (specCalls cs A).2 t)
      (runCalls cs) s := by
  induction cs generalizing A s with
  | nil => exact ⟨rfl, hs⟩
  | cons call cs ih =>
      refine wp_seq (wp_call hs (hcount call (List.mem_cons_self ..))) fun r s₁ ⟨hr, h₁⟩ => ?_
      refine wp_seq (ih h₁ fun call' h => hcount call' (List.mem_cons_of_mem call h))
        fun rs s₂ ⟨hrs, h₂⟩ => ?_
      exact ⟨by rw [hr, hrs]; rfl, h₂⟩

/-- Every sequence of calls on present devices has a run in which it returns with
each byte in its own wait loop, and in every such run that returns it computes the map.
Such a run may also get stuck, where STOP goes out before its wait; `runCalls_not_stuck`
says under which order of moves none does. -/
theorem runCalls_refines {cs : List Call} (hs : Refines P A s) (hidle : s.phase = .idle)
    (hstop : s.stopReq = false) (hdevice : ∀ call ∈ cs, P (call.device.setWidth 7))
    (hcount : ∀ call ∈ cs, call.asksSome) :
    (∃ ms rs t, (machine RegisterFile).Returns ms (runCalls cs) s rs t ∧
      (machine RegisterFile).Keeps OwnWait ms ⟨runCalls cs, s, []⟩) ∧
    ∀ ms rs t, (machine RegisterFile).Returns ms (runCalls cs) s rs t →
      (machine RegisterFile).Keeps OwnWait ms ⟨runCalls cs, s, []⟩ →
      rs = (specCalls cs A).1 ∧ Refines P (specCalls cs A).2 t := by
  constructor
  · have hroom : s.rx.length ≤ 2 := by
      rw [hs.quiet.rx]
      exact Nat.zero_le 2
    have hfree : Settled P (Present P) s :=
      Or.inl ⟨⟨hs.quiet.startReq, hroom, fun a ha => (hs.present a).mpr ha⟩, hidle, hstop⟩
    obtain ⟨ms, rs, t, hret, hkeep, -⟩ :=
      wp_finishes (canExit_runCalls RegisterFile.put_isSome orderly_inTurn hdevice hcount hfree)
    exact ⟨ms, rs, t, hret, hkeep.mono (machine RegisterFile) inTurn_ownWait⟩
  · intro ms rs t hret hkeep
    have h := wp_returns (wp_runCalls_refines hs hcount) hkeep hret
    exact h

theorem refines_counting :
    Refines (· = 0x53#7) ⟨fun _ r => r, fun _ => 0x00#8, []⟩ countingBus := by
  refine ⟨quiet_boot _ _, fun a => ?_, fun a d hd => ?_⟩
  · by_cases ha : a = 0x53#7
    · subst ha
      decide
    · simp [countingBus, World.boot, ha]
  · by_cases ha : a = 0x53#7
    · subst ha
      obtain rfl := Option.some.inj hd
      rfl
    · simp [countingBus, World.boot, ha] at hd

/-- Write a register, read three from the one before it on, read it alone. -/
theorem runCalls_refines_counting :
    ∃ ms rs t, (machine RegisterFile).Returns ms
        (runCalls [.writeReg 0x53#8 0x10#8 0xAB#8, .readMultiReg 0x53#8 0x0F#8 0 3#8,
          .readReg 0x53#8 0x10#8]) countingBus rs t ∧
      rs = [none, none, some 0xAB#8] ∧ t.mem 0 = 0x0F#8 ∧ t.mem 1 = 0xAB#8 ∧
      t.mem 2 = 0x11#8 := by
  have h := @runCalls_refines _ _ _ [.writeReg 0x53#8 0x10#8 0xAB#8,
    .readMultiReg 0x53#8 0x0F#8 0 3#8, .readReg 0x53#8 0x10#8] refines_counting rfl rfl
    (by decide) (by decide)
  obtain ⟨⟨ms, rs, t, hret, hkeep⟩, hall⟩ := h
  obtain ⟨hrs, ht⟩ := hall ms rs t hret hkeep
  refine ⟨ms, rs, t, hret, hrs.trans (by decide), ?_, ?_, ?_⟩ <;>
    rw [ht.quiet.mem] <;> decide

end ImuFirmware
