/-
What the transmitting half of the driver does, whenever the hardware moves.

The statements hold for every guard, so along every interleaving.  They say nothing
of waits that are never left.  A transfer that was cut short (a byte refused, or a
STOP left over from before) leaves the bus idle or the last byte refused, and no
later wait of the transfer succeeds in either, so what is said on return needs no
account of them.
-/
import ImuFirmware.I2C.Events

namespace ImuFirmware

open Polling

variable {δ : Type}

/-- The state no byte on the bus has touched. -/
structure Fields (D : BitVec 7 → Option δ) (m : Nat → Byte) (c : List (Byte × Bool))
    (s : World δ) : Prop where
  startReq : s.startReq = false
  addrFlag : s.addrFlag = false
  rx : s.rx = []
  devs : s.devs = D
  mem : s.mem = m
  clocked : s.clocked = c

/-- No byte is on its way: the bus is idle, or in one of the still phases `P`. -/
structure Rest (P : Phase → Prop) (D : BitVec 7 → Option δ) (m : Nat → Byte)
    (c : List (Byte × Bool)) (s : World δ) : Prop extends Fields D m c s where
  phase : s.phase = .idle ∨ s.phase.still = true ∧ P s.phase

/-- Between two transfers. -/
abbrev Quiet (D : BitVec 7 → Option δ) (m : Nat → Byte) (c : List (Byte × Bool))
    (s : World δ) : Prop :=
  Rest (fun _ => True) D m c s

/-- Transmitting to `a`, the last byte written out. -/
abbrev Sending (a : BitVec 7) (D : BitVec 7 → Option δ) (m : Nat → Byte)
    (c : List (Byte × Bool)) (s : World δ) : Prop :=
  Rest (fun p => p = .transmitter a .empty ∨ p = .transmitter a .finished) D m c s

/-- The transfer is over and the driver does not know. -/
def Dead (s : World δ) : Prop :=
  s.startReq = false ∧ (s.phase = .idle ∨ s.phase = .refused ∧ s.addrFlag = false)

/-- Waits of which nothing is asked. -/
abbrev anyWait : Wait → World δ → Prop := fun _ _ => True

variable {D : BitVec 7 → Option δ} {m : Nat → Byte} {c : List (Byte × Bool)}
  {P : Phase → Prop} {s t : World δ}

theorem Rest.mono {R : Phase → Prop} (h : Rest P D m c s) (hPR : ∀ p, P p → R p) :
    Rest R D m c s :=
  { h with phase := h.phase.imp_right fun hp => ⟨hp.1, hPR _ hp.2⟩ }

theorem Rest.quiet (h : Rest P D m c s) : Quiet D m c s :=
  h.mono fun _ _ => trivial

theorem Rest.of_idle (h : Fields D m c s) (hp : s.phase = .idle) : Rest P D m c s :=
  { h with phase := Or.inl hp }

theorem quiet_boot (devs : BitVec 7 → Option δ) (m : Nat → Byte) :
    Quiet devs m [] (World.boot devs m) :=
  ⟨⟨rfl, rfl, rfl, rfl, rfl, rfl⟩, Or.inl rfl⟩

theorem Fields.stopped (h : Fields D m c s) : Fields D m c s.stopped :=
  ⟨h.startReq, h.addrFlag, h.rx, h.devs, h.mem, h.clocked⟩

theorem Dead.exits {w : Wait} (h : Dead s)
    (hw : w = transmitterWait ∨ w = receiverWait ∨ w = transmittedWait) :
    s.exits w = false := by
  rw [← Bool.not_eq_true]
  rcases hw with rfl | rfl | rfl
  · rw [World.exits_transmitterWait]
    rcases h.2 with hp | ⟨hp, -⟩ <;> simp [hp]
  · rw [World.exits_receiverWait]
    rcases h.2 with hp | ⟨-, hf⟩ <;> simp [*]
  · rw [World.exits_transmittedWait]
    rcases h.2 with hp | ⟨hp, -⟩ <;> simp [hp]

theorem Dead.poll {w : Wait} (h : Dead s) : Dead (s.poll w) := by
  cases w with
  | whileFlag flag => exact h
  | untilEvent event => exact ⟨h.1, h.2.imp_right fun hp => ⟨hp.1, rfl⟩⟩

/-- START requested: the bus is idle or the START condition is out. -/
def Starting (D : BitVec 7 → Option δ) (m : Nat → Byte) (c : List (Byte × Bool))
    (s : World δ) : Prop :=
  Rest (· = .started) D m c { s with startReq := false } ∧
    (s.startReq = true → s.phase = .idle)

theorem Starting.exit (h : Starting D m c s) (he : s.exits startWait = true) :
    Rest (· = .started) D m c s := by
  have hp := s.exits_startWait.mp he
  have hs : s.startReq = false := by
    rw [← Bool.not_eq_true]
    intro hreq
    rw [h.2 hreq] at hp
    exact Phase.noConfusion hp
  exact ⟨⟨hs, h.1.addrFlag, h.1.rx, h.1.devs, h.1.mem, h.1.clocked⟩, h.1.phase⟩

/-- The address byte was written, unless the START was undone before. -/
def Addressing (b : Byte) (D : BitVec 7 → Option δ) (m : Nat → Byte)
    (c : List (Byte × Bool)) (s : World δ) : Prop :=
  Fields D m c s ∧ (s.phase = .address b ∨ s.phase = .idle)

theorem Rest.writeDr_started {b : Byte} (h : Rest (· = .started) D m c s) :
    Addressing b D m c (s.writeDr b) := by
  rcases h.phase with hp | ⟨-, hp⟩
  · rw [World.writeDr_idle hp]
    exact ⟨h.toFields, Or.inr hp⟩
  · rw [World.writeDr_started hp]
    exact ⟨⟨h.startReq, h.addrFlag, h.rx, h.devs, h.mem, h.clocked⟩, Or.inl rfl⟩

theorem Rest.writeDr_sending {a : BitVec 7} {b : Byte} (h : Sending a D m c s) :
    Fields D m c (s.writeDr b) ∧ ((s.writeDr b).phase = .transmitter a (.shifting b) ∨
      (s.writeDr b).phase = .idle) := by
  have hf := h.toFields
  rcases h.phase with hp | ⟨-, hp | hp⟩
  · rw [World.writeDr_idle hp]
    exact ⟨hf, Or.inr hp⟩
  · rw [World.writeDr_transmitter hp]
    exact ⟨⟨hf.startReq, hf.addrFlag, hf.rx, hf.devs, hf.mem, hf.clocked⟩, Or.inl rfl⟩
  · rw [World.writeDr_transmitter hp]
    exact ⟨⟨hf.startReq, hf.addrFlag, hf.rx, hf.devs, hf.mem, hf.clocked⟩, Or.inl rfl⟩

theorem Addressing.exits {b : Byte} {w : Wait} (h : Addressing b D m c s)
    (hw : w = transmitterWait ∨ w = receiverWait) : s.exits w = false := by
  have hf := h.1.addrFlag
  rw [← Bool.not_eq_true]
  rcases hw with rfl | rfl
  · rw [World.exits_transmitterWait]
    simp [hf]
  · rw [World.exits_receiverWait]
    simp [hf]

theorem Addressing.poll {b : Byte} {w : Wait} (h : Addressing b D m c s) :
    Addressing b D m c (s.poll w) := by
  cases w with
  | whileFlag flag => exact h
  | untilEvent event =>
      exact ⟨⟨h.1.startReq, rfl, h.1.rx, h.1.devs, h.1.mem, h.1.clocked⟩, h.2⟩

/-! ## The hardware's moves -/

variable [Device δ] {G : Guard sig (World δ)}

theorem Rest.step (h : Rest P D m c s) (ht : s.hwStep = some t) : Rest P D m c t := by
  rcases h.phase with hp | hp
  · exact absurd ht (World.hwStep_idle_ne hp h.startReq)
  · rw [(World.hwStep_still_inv hp.1 ht).2]
    exact Rest.of_idle h.toFields.stopped rfl

theorem Dead.step (h : Dead s) (ht : s.hwStep = some t) : Dead t := by
  rcases h.2 with hp | ⟨hp, -⟩
  · exact absurd ht (World.hwStep_idle_ne hp h.1)
  · rw [(World.hwStep_still_inv (by rw [hp]; rfl) ht).2]
    exact ⟨h.1, Or.inl rfl⟩

/-! ## Starting a transfer -/

theorem wp_whileBusy (hs : Quiet D m c s) :
    wp (machine δ) G anyWait (fun _ t => Fields D m c t ∧ t.phase = .idle)
      (whileFlag i2cFlagBusy) s :=
  wp_await (Quiet D m c) hs (fun _ _ h _ ht => h.step ht) (fun _ h _ => h)
    (fun _ _ => trivial)
    (fun t h he => ⟨h.toFields, t.exits_busyWait.mp he⟩)

theorem Starting.step (h : Starting D m c s) (ht : s.hwStep = some t) :
    Starting D m c t := by
  obtain ⟨hr, hreq⟩ := h
  by_cases hs : s.startReq = true
  · rw [World.hwStep_startReq (hreq hs) hs] at ht
    obtain rfl := Option.some.inj ht
    exact ⟨{ hr with phase := Or.inr ⟨rfl, rfl⟩ }, fun h => Bool.noConfusion h⟩
  · rw [Bool.not_eq_true] at hs
    rcases (show s.phase = .idle ∨ s.phase.still = true ∧ s.phase = .started from hr.phase)
      with hp | hp
    · exact absurd ht (World.hwStep_idle_ne hp hs)
    · rw [(World.hwStep_still_inv hp.1 ht).2]
      exact ⟨Rest.of_idle hr.toFields.stopped rfl, fun _ => rfl⟩

/-- From the BUSY wait to the address byte in the data register. -/
theorem wp_startHead {α : Type} {Q : α → World δ → Prop} {address direction : Byte}
    {k : Driver α} (hs : Quiet D m c s)
    (hk : ∀ t, Addressing (addressByte address direction) D m c t →
      wp (machine δ) G anyWait Q k t) :
    wp (machine δ) G anyWait Q (do
      whileFlag i2cFlagBusy
      i2cGenerateStart
      untilEvent i2cEventMasterModeSelect
      i2cSend7bitAddress address direction
      k) s := by
  refine wp_seq (wp_whileBusy hs) fun _ s₁ h₁ => ?_
  have hstart : wp (machine δ) G anyWait (fun _ t => Starting D m c t) i2cGenerateStart s₁ := by
    refine wp_op (fun t => Fields D m c t ∧ t.phase = .idle) h₁ ?_ ?_
    · intro u v hu _ hv
      exact absurd hv (World.hwStep_idle_ne hu.2 hu.1.startReq)
    · intro u hu _
      exact ⟨⟨⟨rfl, hu.1.addrFlag, hu.1.rx, hu.1.devs, hu.1.mem, hu.1.clocked⟩,
        Or.inl hu.2⟩, fun _ => hu.2⟩
  refine wp_seq hstart fun _ s₂ h₂ => ?_
  have hev : wp (machine δ) G anyWait (fun _ t => Rest (· = .started) D m c t)
      (untilEvent i2cEventMasterModeSelect) s₂ := by
    refine wp_await (Starting D m c) h₂ (fun _ _ h _ ht => h.step ht) ?_
      (fun _ _ => trivial) ?_
    · exact fun u hu _ => ⟨⟨⟨rfl, rfl, hu.1.rx, hu.1.devs, hu.1.mem, hu.1.clocked⟩,
        hu.1.phase⟩, hu.2⟩
    · intro u hu he
      have h := hu.exit he
      exact ⟨⟨h.startReq, rfl, h.rx, h.devs, h.mem, h.clocked⟩, h.phase⟩
  refine wp_seq hev fun _ s₃ h₃ => ?_
  refine wp_seq (R := fun _ t => Addressing (addressByte address direction) D m c t) ?_
    fun _ t ht => hk t ht
  exact wp_op (Rest (· = .started) D m c) h₃ (fun _ _ h _ ht => h.step ht)
    (fun _ hu _ => hu.writeDr_started)

/-- One move of the hardware on the address byte. -/
theorem Addressing.step {b : Byte} (h : Addressing b D m c s) (ht : s.hwStep = some t) :
    Dead t ∨ ∃ d, D (World.target b) = some d ∧ t = { s with
      phase := if b.getLsbD 0 then .receiver (World.target b)
        else .transmitter (World.target b) .empty
      addrFlag := true
      devs := Function.update D (World.target b)
        (some (Device.select (b.getLsbD 0) d)) } := by
  obtain ⟨hf, hp | hp⟩ := h
  · cases hd : D (World.target b) with
    | none =>
        rw [World.hwStep_absent hp (by rw [hf.devs, hd])] at ht
        obtain rfl := Option.some.inj ht
        exact Or.inl ⟨hf.startReq, Or.inr ⟨rfl, hf.addrFlag⟩⟩
    | some d =>
        rw [World.hwStep_present hp (by rw [hf.devs, hd]), hf.devs] at ht
        exact Or.inr ⟨d, rfl, (Option.some.inj ht).symm⟩
  · exact absurd ht (World.hwStep_idle_ne hp hf.startReq)

/-- `I2C_start` as transmitter returns only once the device is addressed. -/
theorem wp_i2cStart_transmitter {device : Byte} (hs : Quiet D m c s) :
    wp (machine δ) G anyWait
      (fun _ t => ∃ d, D (device.setWidth 7) = some d ∧
        Sending (device.setWidth 7)
          (Function.update D (device.setWidth 7) (some (Device.select false d))) m c t)
      (i2cStart (device <<< 1) i2cDirectionTransmitter) s := by
  unfold i2cStart
  refine wp_startHead hs fun s₁ h₁ => ?_
  rw [if_pos rfl]
  set b := addressByte (device <<< 1) i2cDirectionTransmitter with hb
  have htarget : World.target b = device.setWidth 7 := World.target_addressByte device _
  have hbit : b.getLsbD 0 = false := World.addressByte_transmitter _
  refine wp_await (fun t => Addressing b D m c t ∨ Dead t ∨
    ∃ d, D (device.setWidth 7) = some d ∧ Sending (device.setWidth 7)
      (Function.update D (device.setWidth 7) (some (Device.select false d))) m c
      { t with addrFlag := false }) (Or.inl h₁) ?_ ?_ (fun _ _ => trivial) ?_
  · intro u v hcase _ hv
    rcases hcase with hu | hu | ⟨d, hd, hu⟩
    · rcases hu.step hv with hv' | ⟨d, hd, rfl⟩
      · exact Or.inr (Or.inl hv')
      · rw [htarget] at hd
        refine Or.inr (Or.inr ⟨d, hd, ⟨⟨hu.1.startReq, rfl, hu.1.rx, ?_, hu.1.mem,
          hu.1.clocked⟩, Or.inr ?_⟩⟩)
        · simp only [htarget, hbit]
        · simp only [htarget, hbit, Bool.false_eq_true, if_false]
          exact ⟨rfl, Or.inl trivial⟩
    · exact Or.inr (Or.inl (hu.step hv))
    · refine Or.inr (Or.inr ⟨d, hd, ?_⟩)
      rcases (show u.phase = .idle ∨ u.phase.still = true ∧ _ from hu.phase) with hp | hp
      · exact absurd hv (World.hwStep_idle_ne hp hu.startReq)
      · rw [(World.hwStep_still_inv hp.1 hv).2]
        exact Rest.of_idle hu.toFields.stopped rfl
  · intro u hcase _
    rcases hcase with hu | hu | hu
    · exact Or.inl (hu.poll (w := transmitterWait))
    · exact Or.inr (Or.inl (hu.poll (w := transmitterWait)))
    · exact Or.inr (Or.inr hu)
  · intro u hcase he
    rcases hcase with hu | hu | hu
    · exact absurd he (by simp [hu.exits (Or.inl rfl)])
    · exact absurd he (by simp [hu.exits (Or.inl rfl)])
    · exact hu

/-! ## Sending bytes -/

/-- `I2C_write` returns only once the device has acknowledged the byte. -/
theorem wp_i2cWrite {a : BitVec 7} {b : Byte} (hs : Sending a D m c s) :
    wp (machine δ) G anyWait
      (fun _ t => ∃ d d', D a = some d ∧ Device.put b d = some d' ∧
        Sending a (Function.update D a (some d')) m c t) (i2cWrite b) s := by
  have hsend : wp (machine δ) G anyWait
      (fun _ t => Fields D m c t ∧ (t.phase = .transmitter a (.shifting b) ∨ t.phase = .idle))
      (i2cSendData b) s := by
    exact wp_op (Sending a D m c) hs (fun _ _ h _ ht => h.step ht)
      (fun _ hu _ => hu.writeDr_sending)
  unfold i2cWrite
  refine wp_seq hsend fun _ s₁ h₁ => ?_
  refine wp_await (fun t =>
    (Fields D m c t ∧ (t.phase = .transmitter a (.shifting b) ∨ t.phase = .idle)) ∨ Dead t ∨
    ∃ d d', D a = some d ∧ Device.put b d = some d' ∧
      Sending a (Function.update D a (some d')) m c t) (Or.inl h₁) ?_ ?_
    (fun _ _ => trivial) ?_
  · intro u v hcase _ hv
    rcases hcase with ⟨hf, hp | hp⟩ | hu | ⟨d, d', hd, hd', hu⟩
    · cases hput : (D a).bind (Device.put b) with
      | none =>
          have hstep := World.hwStep_shifting_refused hp (by rw [hf.devs, hput])
          obtain rfl := Option.some.inj (hstep.symm.trans hv)
          exact Or.inr (Or.inl ⟨hf.startReq, Or.inr ⟨rfl, hf.addrFlag⟩⟩)
      | some d' =>
          obtain ⟨d, hd, hd'⟩ := Option.bind_eq_some_iff.mp hput
          have hstep := World.hwStep_shifting hp (by rw [hf.devs, hput])
          obtain rfl := Option.some.inj (hstep.symm.trans hv)
          refine Or.inr (Or.inr ⟨d, d', hd, hd', ⟨⟨hf.startReq, hf.addrFlag, hf.rx, ?_, hf.mem,
            hf.clocked⟩, Or.inr ⟨rfl, Or.inr rfl⟩⟩⟩)
          simp only [hf.devs]
    · exact absurd hv (World.hwStep_idle_ne hp hf.startReq)
    · exact Or.inr (Or.inl (hu.step hv))
    · exact Or.inr (Or.inr ⟨d, d', hd, hd', hu.step hv⟩)
  · intro u hcase _
    rcases hcase with ⟨hf, hp⟩ | hu | ⟨d, d', hd, hd', hu⟩
    · exact Or.inl ⟨⟨hf.startReq, rfl, hf.rx, hf.devs, hf.mem, hf.clocked⟩, hp⟩
    · exact Or.inr (Or.inl (hu.poll (w := transmittedWait)))
    · exact Or.inr (Or.inr ⟨d, d', hd, hd',
        ⟨⟨hu.startReq, rfl, hu.rx, hu.devs, hu.mem, hu.clocked⟩, hu.phase⟩⟩)
  · intro u hcase he
    rcases hcase with ⟨hf, hp⟩ | hu | ⟨d, d', hd, hd', hu⟩
    · obtain ⟨a', ha'⟩ := u.exits_transmittedWait.mp he
      rcases hp with hp | hp <;> rw [hp] at ha' <;> simp at ha'
    · exact absurd he (by simp [hu.exits (Or.inr (Or.inr rfl))])
    · exact ⟨d, d', hd, hd',
        ⟨⟨hu.startReq, rfl, hu.rx, hu.devs, hu.mem, hu.clocked⟩, hu.phase⟩⟩

theorem wp_i2cStop (hs : Rest P D m c s) :
    wp (machine δ) G anyWait (fun _ t => Quiet D m c t) i2cStop s :=
  wp_op (Rest P D m c) hs (fun _ _ h _ ht => h.step ht) fun _ hu _ =>
    ⟨⟨hu.startReq, hu.addrFlag, hu.rx, hu.devs, hu.mem, hu.clocked⟩, hu.quiet.phase⟩

/-- What a device that takes both bytes of a register write becomes. -/
def written (register data : Byte) (d : δ) : Option δ :=
  (Device.put register (Device.select false d)).bind (Device.put data)

theorem wp_i2cWriteReg {device register data : Byte} (hs : Quiet D m c s) :
    wp (machine δ) G anyWait
      (fun _ t => ∃ d d', D (device.setWidth 7) = some d ∧ written register data d = some d' ∧
        Quiet (Function.update D (device.setWidth 7) (some d')) m c t)
      (i2cWriteReg device register data) s := by
  unfold i2cWriteReg
  refine wp_seq (wp_i2cStart_transmitter hs) fun _ s₁ ⟨d, hd, h₁⟩ => ?_
  refine wp_seq (wp_i2cWrite h₁) fun _ s₂ ⟨e, e', he, he', h₂⟩ => ?_
  refine wp_seq (wp_i2cWrite h₂) fun _ s₃ ⟨f, f', hf, hf', h₃⟩ => ?_
  rw [Function.update_self] at he hf
  obtain rfl := Option.some.inj he
  obtain rfl := Option.some.inj hf
  rw [Function.update_idem, Function.update_idem] at h₃
  refine wp_mono (fun _ t ht => ⟨d, f', hd, ?_, ht⟩) (wp_i2cStop h₃)
  rw [written, he', Option.bind_some, hf']

end ImuFirmware
