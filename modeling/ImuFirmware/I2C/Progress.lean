/-
The driver's wait loops can all be left, in runs that keep an order.

Two things must not happen.  A STOP must not go out while the driver could still
see the byte it waits for, or stands between two wait loops: `I2C_read_nack`
requests STOP before its last byte and `I2C_stop` requests it once more.  And no
byte may be refused before `I2C_read_ack` has enabled ACK.  `Orderly` is a guard
under which neither happens.

What the devices on the bus take is a parameter: `R` says what is known of them,
`Serves` that reading keeps it, and `Takes` that they acknowledge one more byte.
-/
import ImuFirmware.I2C.RegisterFile

namespace ImuFirmware

open Polling

variable {δ : Type}

/-- The hardware moves only while the driver sits in a wait loop that it cannot
leave yet. -/
def Blocked (G : Guard sig (World δ)) : Prop :=
  ∀ ctl s, G ctl s .machine → ∃ c, ctl = .waiting c ∧ s.exits c = false

theorem not_blocked_accessing {G : Guard sig (World δ)} {s : World δ} {o : Op}
    (hg : G (.accessing o) s .machine) : ¬ Blocked G := by
  intro hblocked
  obtain ⟨c, hc, -⟩ := hblocked _ s hg
  exact nomatch hc

theorem not_blocked_of_exits {G : Guard sig (World δ)} {s : World δ} {w : Wait}
    (hg : G (.waiting w) s .machine) (he : s.exits w = true) : ¬ Blocked G := by
  intro hblocked
  obtain ⟨c, hc, hc'⟩ := hblocked _ s hg
  obtain rfl : w = c := Ctl.waiting.inj hc
  rw [he] at hc'
  exact Bool.noConfusion hc'

structure Orderly (G : Guard sig (World δ)) : Prop where
  stop : ∀ ctl s, G ctl s .machine → s.phase.still = true → s.stopReq = true →
    ∃ c, ctl = .waiting c ∧ s.exits c = false
  ack : ¬ Blocked G → ∀ s, G (.accessing (.acknowledgeConfig true)) s .program →
    ∃ a, s.phase = .receiver a

variable [Device δ]

theorem orderly_inTurn : Orderly (machine δ).InTurn where
  stop := fun _ _ hg _ _ => hg rfl
  ack := fun h => absurd (fun _ _ hg => hg rfl) h

/-- What is known of the devices at the addresses `A`. -/
structure Serves (A : BitVec 7 → Prop) (R : (BitVec 7 → Option δ) → Prop) : Prop where
  present : ∀ D a, R D → A a → ∃ d, D a = some d
  select : ∀ D a d reading, R D → A a → D a = some d →
    R (Function.update D a (some (Device.select reading d)))
  get : ∀ D a d, R D → A a → D a = some d → R (Function.update D a (some (Device.get d).2))

/-- The device at `a` acknowledges one more data byte. -/
def Takes (a : BitVec 7) (R R' : (BitVec 7 → Option δ) → Prop) : Prop :=
  ∀ D b, R D → ∃ d d', D a = some d ∧ Device.put b d = some d' ∧
    R' (Function.update D a (some d'))

/-- What holds throughout, except that START may be requested. -/
structure Base (R : (BitVec 7 → Option δ) → Prop) (s : World δ) : Prop where
  startReq : s.startReq = false
  room : s.rx.length ≤ 2
  ready : R s.devs

/-- The bus is free and nothing is requested. -/
def Free (R : (BitVec 7 → Option δ) → Prop) (s : World δ) : Prop :=
  Base R s ∧ s.phase = .idle ∧ s.stopReq = false

/-- STOP is requested and nothing but at most one byte stands before it. -/
def Closing (A : BitVec 7 → Prop) (R : (BitVec 7 → Option δ) → Prop) (s : World δ) : Prop :=
  Base R s ∧ s.stopReq = true ∧
    (s.phase.still = true ∨ ∃ a, A a ∧ s.phase = .receiver a ∧ s.rx.length ≤ 1)

def Settled (A : BitVec 7 → Prop) (R : (BitVec 7 → Option δ) → Prop) (s : World δ) : Prop :=
  Free R s ∨ Closing A R s

/-- The address byte is on its way. -/
def Called (b : Byte) (R : (BitVec 7 → Option δ) → Prop) (s : World δ) : Prop :=
  Base R s ∧ s.stopReq = false ∧ s.addrFlag = false ∧ s.phase = .address b

/-- The device at `a` was addressed for writing and owes nothing. -/
def Loaded (a : BitVec 7) (R : (BitVec 7 → Option δ) → Prop) (s : World δ) : Prop :=
  Base R s ∧ s.stopReq = false ∧
    (s.phase = .transmitter a .empty ∨ s.phase = .transmitter a .finished)

/-- The device at `a` is sending, or has been cut short after its first byte. -/
def Incoming (G : Guard sig (World δ)) (a : BitVec 7) (R : (BitVec 7 → Option δ) → Prop)
    (s : World δ) : Prop :=
  Base R s ∧ s.stopReq = false ∧
    (s.phase = .receiver a ∨ s.phase = .ended ∧ s.rx ≠ [] ∧ ¬ Blocked G)

/-- Receiving with ACK set. -/
def Live (a : BitVec 7) (R : (BitVec 7 → Option δ) → Prop) (s : World δ) : Prop :=
  Base R s ∧ s.stopReq = false ∧ s.ack = true ∧ s.phase = .receiver a

/-- The last byte is in or coming in, and STOP is requested. -/
def Final (a : BitVec 7) (R : (BitVec 7 → Option δ) → Prop) (s : World δ) : Prop :=
  Base R s ∧ s.stopReq = true ∧
    (s.phase = .receiver a ∨ s.phase = .ended ∧ s.rx ≠ [])

variable {A : BitVec 7 → Prop} {R R' : (BitVec 7 → Option δ) → Prop}
  {G : Guard sig (World δ)} {a : BitVec 7} {s t : World δ}

/-! ## The hardware's moves -/

/-- Nothing moves in a still phase without a requested STOP. -/
theorem hwStep_still_ne (hp : s.phase.still = true) (hs : s.stopReq = false) :
    s.hwStep ≠ some t := fun ht => by
  have hreq := (World.hwStep_still_inv hp ht).1
  rw [hs] at hreq
  exact Bool.noConfusion hreq

/-- One byte comes in. -/
theorem hwStep_incoming (hR : Serves A R) (ha : A a) (hb : Base R s)
    (hp : s.phase = .receiver a) (ht : s.hwStep = some t) :
    Base R t ∧ t.stopReq = s.stopReq ∧ t.ack = s.ack ∧ t.rx ≠ [] ∧
      t.phase = if s.ack && !s.stopReq then .receiver a else .ended := by
  obtain ⟨d, hd⟩ := hR.present s.devs a hb.ready ha
  obtain ⟨hroom, rfl⟩ := World.hwStep_receiver_inv hp hd ht
  refine ⟨⟨hb.startReq, ?_, hR.get s.devs a d hb.ready ha hd⟩, rfl, rfl, ?_, rfl⟩
  · simp only [List.length_append, List.length_singleton]
    omega
  · simp

theorem hwStep_room (hR : Serves A R) (ha : A a) (hb : Base R s)
    (hp : s.phase = .receiver a) (hroom : s.rx.length < 2) : ∃ t, s.hwStep = some t := by
  obtain ⟨d, hd⟩ := hR.present s.devs a hb.ready ha
  exact ⟨_, World.hwStep_receiver hp hd hroom⟩

theorem Closing.step (hR : Serves A R) (h : Closing A R s) (ht : s.hwStep = some t) :
    Closing A R t ∨ s.phase.still = true ∧ Free R t := by
  obtain ⟨hb, hs, hp | ⟨a, ha, hp, -⟩⟩ := h
  · obtain rfl := (World.hwStep_still_inv hp ht).2
    exact Or.inr ⟨hp, ⟨hb.startReq, hb.room, hb.ready⟩, rfl, rfl⟩
  · obtain ⟨hb', hs', -, -, hp'⟩ := hwStep_incoming hR ha hb hp ht
    refine Or.inl ⟨hb', hs'.trans hs, Or.inl ?_⟩
    rw [hp', hs, Bool.not_true, Bool.and_false, if_neg Bool.false_ne_true]
    rfl

theorem Settled.step (hR : Serves A R) (h : Settled A R s) (ht : s.hwStep = some t) :
    Settled A R t := by
  rcases h with ⟨hb, hp, -⟩ | h
  · exact absurd ht (World.hwStep_idle_ne hp hb.startReq)
  · rcases h.step hR ht with h' | ⟨-, h'⟩
    · exact Or.inr h'
    · exact Or.inl h'

theorem canExit_busyWait_of_still (hp : s.phase.still = true) (hs : s.stopReq = true) :
    (machine δ).CanExit busyWait s := by
  have hstep : s.hwStep = some s.stopped := by rw [World.hwStep_still hp, if_pos hs]
  exact (machine δ).canExit_step hstep
    ((machine δ).canExit_now (s.stopped.exits_busyWait.mpr rfl))

theorem Settled.canExit (hR : Serves A R) (h : Settled A R s) :
    (machine δ).CanExit busyWait s := by
  rcases h with ⟨-, hp, -⟩ | ⟨hb, hs, hp | ⟨a, ha, hp, hroom⟩⟩
  · exact (machine δ).canExit_now (s.exits_busyWait.mpr hp)
  · exact canExit_busyWait_of_still hp hs
  · obtain ⟨t, ht⟩ := hwStep_room hR ha hb hp (by omega)
    obtain ⟨-, hs', -, -, hp'⟩ := hwStep_incoming hR ha hb hp ht
    rw [hs, Bool.not_true, Bool.and_false, if_neg Bool.false_ne_true] at hp'
    refine (machine δ).canExit_step ht (canExit_busyWait_of_still ?_ (hs'.trans hs))
    rw [hp']
    rfl

theorem canExit_receivedWait (hR : Serves A R) (ha : A a) (hb : Base R s)
    (hp : s.phase = .receiver a ∨ s.phase = .ended ∧ s.rx ≠ []) :
    (machine δ).CanExit receivedWait s := by
  by_cases hrx : s.rx = []
  · have hrecv : s.phase = .receiver a := hp.resolve_right fun h => h.2 hrx
    obtain ⟨t, ht⟩ := hwStep_room hR ha hb hrecv (by rw [hrx]; decide)
    obtain ⟨-, -, -, hrx', hp'⟩ := hwStep_incoming hR ha hb hrecv ht
    refine (machine δ).canExit_step ht ((machine δ).canExit_now ?_)
    refine t.exits_receivedWait.mpr ⟨hrx', ?_⟩
    rw [hp']
    split <;> exact nofun
  · refine (machine δ).canExit_now (s.exits_receivedWait.mpr ⟨hrx, ?_⟩)
    rcases hp with hp | ⟨hp, -⟩ <;> rw [hp] <;> exact nofun

/-! ## Starting a transfer -/

theorem Called.step {b : Byte} (hR : Serves A R) (ha : A (World.target b))
    (h : Called b R s) (ht : s.hwStep = some t) :
    Base R t ∧ t.stopReq = false ∧ t.addrFlag = true ∧
      t.phase = if b.getLsbD 0 then .receiver (World.target b)
        else .transmitter (World.target b) .empty := by
  obtain ⟨hb, hs, -, hp⟩ := h
  obtain ⟨d, hd⟩ := hR.present s.devs _ hb.ready ha
  rw [World.hwStep_present hp hd] at ht
  obtain rfl := Option.some.inj ht
  exact ⟨⟨hb.startReq, hb.room, hR.select s.devs _ d _ hb.ready ha hd⟩, hs, rfl, rfl⟩

theorem Called.hwStep {b : Byte} (hR : Serves A R) (ha : A (World.target b))
    (h : Called b R s) : ∃ t, s.hwStep = some t := by
  obtain ⟨d, hd⟩ := hR.present s.devs _ h.1.ready ha
  exact ⟨_, World.hwStep_present h.2.2.2 hd⟩

/-- From the BUSY wait to the address byte in the data register. -/
theorem canExit_startHead {α : Type} {Q : α → World δ → Prop} {address direction : Byte}
    {k : Driver α} (hR : Serves A R) (hs : Settled A R s)
    (hk : ∀ t, Called (addressByte address direction) R t →
      wp (machine δ) G (machine δ).CanExit Q k t) :
    wp (machine δ) G (machine δ).CanExit Q (do
      whileFlag i2cFlagBusy
      i2cGenerateStart
      untilEvent i2cEventMasterModeSelect
      i2cSend7bitAddress address direction
      k) s := by
  have hbusy : wp (machine δ) G (machine δ).CanExit (fun _ t => Free R t)
      (whileFlag i2cFlagBusy) s := by
    refine wp_await (Settled A R) hs (fun _ _ h _ ht => h.step hR ht) (fun _ h _ => h)
      (fun _ h => h.canExit hR) ?_
    intro u hcase he
    rcases hcase with hu | ⟨-, -, hu⟩
    · exact hu
    · have hp := u.exits_busyWait.mp he
      rcases hu with hu | ⟨a, -, hu, -⟩ <;> rw [hp] at hu <;> exact nomatch hu
  refine wp_seq hbusy fun _ s₁ h₁ => ?_
  have hstart : wp (machine δ) G (machine δ).CanExit
      (fun _ t => Free R { t with startReq := false } ∧ t.startReq = true)
      i2cGenerateStart s₁ := by
    refine wp_op (Free R) h₁ (fun u v hu _ hv => ?_) (fun u hu _ => ?_)
    · exact absurd hv (World.hwStep_idle_ne hu.2.1 hu.1.startReq)
    · exact ⟨⟨⟨rfl, hu.1.room, hu.1.ready⟩, hu.2⟩, rfl⟩
  refine wp_seq hstart fun _ s₂ h₂ => ?_
  have hev : wp (machine δ) G (machine δ).CanExit
      (fun _ t => Base R t ∧ t.stopReq = false ∧ t.addrFlag = false ∧ t.phase = .started)
      (untilEvent i2cEventMasterModeSelect) s₂ := by
    refine wp_await (fun t => (Free R { t with startReq := false } ∧ t.startReq = true) ∨
      Base R t ∧ t.stopReq = false ∧ t.phase = .started) (Or.inl h₂) ?_ ?_ ?_ ?_
    · intro u v hcase _ hv
      rcases hcase with ⟨⟨hu, hp, hs⟩, hreq⟩ | ⟨hu, hs, hp⟩
      · have hidle : u.phase = .idle := hp
        obtain rfl := Option.some.inj ((World.hwStep_startReq hidle hreq).symm.trans hv)
        exact Or.inr ⟨⟨rfl, hu.room, hu.ready⟩, hs, rfl⟩
      · exact absurd hv (hwStep_still_ne (by rw [hp]; rfl) hs)
    · intro u hcase _
      rcases hcase with ⟨⟨hu, hp, hs⟩, hreq⟩ | ⟨hu, hs, hp⟩
      · exact Or.inl ⟨⟨⟨rfl, hu.room, hu.ready⟩, hp, hs⟩, hreq⟩
      · exact Or.inr ⟨⟨hu.startReq, hu.room, hu.ready⟩, hs, hp⟩
    · intro u hcase
      rcases hcase with ⟨⟨hu, hp, hs⟩, hreq⟩ | ⟨hu, hs, hp⟩
      · have hidle : u.phase = .idle := hp
        exact (machine δ).canExit_step (World.hwStep_startReq hidle hreq)
          ((machine δ).canExit_now ((World.exits_startWait _).mpr rfl))
      · exact (machine δ).canExit_now (u.exits_startWait.mpr hp)
    · intro u hcase he
      rcases hcase with ⟨⟨hu, hp, hs⟩, hreq⟩ | ⟨hu, hs, hp⟩
      · have hp' := u.exits_startWait.mp he
        rw [show u.phase = .idle from hp] at hp'
        exact nomatch hp'
      · exact ⟨⟨hu.startReq, hu.room, hu.ready⟩, hs, rfl, hp⟩
  refine wp_seq hev fun _ s₃ h₃ => ?_
  have haddr : wp (machine δ) G (machine δ).CanExit
      (fun _ t => Called (addressByte address direction) R t)
      (i2cSend7bitAddress address direction) s₃ := by
    refine wp_op (fun t => Base R t ∧ t.stopReq = false ∧ t.addrFlag = false ∧
      t.phase = .started) h₃ (fun u v hu _ hv => ?_) (fun u hu _ => ?_)
    · exact absurd hv (hwStep_still_ne (by rw [hu.2.2.2]; rfl) hu.2.1)
    · obtain ⟨hu, hs, hf, hp⟩ := hu
      show Called _ R (u.writeDr _)
      rw [World.writeDr_started hp]
      exact ⟨⟨hu.startReq, hu.room, hu.ready⟩, hs, hf, rfl⟩
  exact wp_seq haddr fun _ t ht => hk t ht

theorem canExit_i2cStart_transmitter {device : Byte} (hR : Serves A R)
    (ha : A (device.setWidth 7)) (hs : Settled A R s) :
    wp (machine δ) G (machine δ).CanExit (fun _ t => Loaded (device.setWidth 7) R t)
      (i2cStart (device <<< 1) i2cDirectionTransmitter) s := by
  unfold i2cStart
  refine canExit_startHead hR hs fun s₁ h₁ => ?_
  rw [if_pos rfl]
  set b := addressByte (device <<< 1) i2cDirectionTransmitter with hb
  have htarget : World.target b = device.setWidth 7 := World.target_addressByte device _
  have hbit : b.getLsbD 0 = false := World.addressByte_transmitter _
  rw [← htarget] at ha ⊢
  have hstep : ∀ u v, Called b R u → u.hwStep = some v → Base R v ∧ v.stopReq = false ∧
      v.addrFlag = true ∧ v.phase = .transmitter (World.target b) .empty := by
    intro u v hu hv
    have hv' := hu.step hR ha hv
    rwa [hbit, if_neg Bool.false_ne_true] at hv'
  refine wp_await (fun t => Called b R t ∨ Base R t ∧ t.stopReq = false ∧
    t.addrFlag = true ∧ t.phase = .transmitter (World.target b) .empty) (Or.inl h₁) ?_ ?_ ?_ ?_
  · intro u v hcase _ hv
    rcases hcase with hu | ⟨hu, hs, hf, hp⟩
    · exact Or.inr (hstep u v hu hv)
    · exact absurd hv (hwStep_still_ne (by rw [hp]; rfl) hs)
  · intro u hcase he
    rcases hcase with ⟨hu, hs, hf, hp⟩ | ⟨hu, hs, hf, hp⟩
    · exact Or.inl ⟨⟨hu.startReq, hu.room, hu.ready⟩, hs, rfl, hp⟩
    · have hexit := u.exits_transmitterWait.mpr ⟨hf, _, Or.inl hp⟩
      exact absurd (hexit.symm.trans he) nofun
  · intro u hcase
    rcases hcase with hu | ⟨hu, hs, hf, hp⟩
    · obtain ⟨v, hv⟩ := hu.hwStep hR ha
      obtain ⟨-, -, hf, hp⟩ := hstep u v hu hv
      exact (machine δ).canExit_step hv
        ((machine δ).canExit_now (v.exits_transmitterWait.mpr ⟨hf, _, Or.inl hp⟩))
    · exact (machine δ).canExit_now (u.exits_transmitterWait.mpr ⟨hf, _, Or.inl hp⟩)
  · intro u hcase he
    rcases hcase with ⟨-, -, hf, -⟩ | ⟨hu, hs, hf, hp⟩
    · have hexit := (u.exits_transmitterWait.mp he).1
      exact absurd (hf.symm.trans hexit) nofun
    · exact ⟨⟨hu.startReq, hu.room, hu.ready⟩, hs, Or.inl hp⟩

theorem canExit_i2cWrite {b : Byte} (hput : Takes a R R') (hs : Loaded a R s) :
    wp (machine δ) G (machine δ).CanExit (fun _ t => Loaded a R' t) (i2cWrite b) s := by
  have hsend : wp (machine δ) G (machine δ).CanExit
      (fun _ t => Base R t ∧ t.stopReq = false ∧ t.phase = .transmitter a (.shifting b))
      (i2cSendData b) s := by
    refine wp_op (Loaded a R) hs (fun u v hu _ hv => ?_) (fun u hu _ => ?_)
    · obtain ⟨-, hs, hp | hp⟩ := hu <;>
        exact absurd hv (hwStep_still_ne (by rw [hp]; rfl) hs)
    · obtain ⟨hu, hs, hp⟩ := hu
      show Base R (u.writeDr b) ∧ (u.writeDr b).stopReq = false ∧ (u.writeDr b).phase = _
      rcases hp with hp | hp
      · rw [World.writeDr_transmitter hp]
        exact ⟨⟨hu.startReq, hu.room, hu.ready⟩, hs, rfl⟩
      · rw [World.writeDr_transmitter hp]
        exact ⟨⟨hu.startReq, hu.room, hu.ready⟩, hs, rfl⟩
  unfold i2cWrite
  refine wp_seq hsend fun _ s₁ h₁ => ?_
  have hstep : ∀ u, Base R u → u.stopReq = false → u.phase = .transmitter a (.shifting b) →
      ∃ v, u.hwStep = some v ∧ Base R' v ∧ v.stopReq = false ∧
        v.phase = .transmitter a .finished := by
    intro u hu hs hp
    obtain ⟨d, d', hd, hd', hR'⟩ := hput u.devs b hu.ready
    have hput' : (u.devs a).bind (Device.put b) = some d' := by rw [hd, Option.bind_some, hd']
    exact ⟨_, World.hwStep_shifting hp hput', ⟨hu.startReq, hu.room, hR'⟩, hs, rfl⟩
  refine wp_await (fun t =>
    (Base R t ∧ t.stopReq = false ∧ t.phase = .transmitter a (.shifting b)) ∨
    Base R' t ∧ t.stopReq = false ∧ t.phase = .transmitter a .finished) (Or.inl h₁) ?_ ?_ ?_ ?_
  · intro u v hcase _ hv
    rcases hcase with ⟨hu, hs, hp⟩ | ⟨hu, hs, hp⟩
    · obtain ⟨w, hw, hw'⟩ := hstep u hu hs hp
      obtain rfl := Option.some.inj (hw.symm.trans hv)
      exact Or.inr hw'
    · exact absurd hv (hwStep_still_ne (by rw [hp]; rfl) hs)
  · intro u hcase _
    rcases hcase with ⟨hu, hs, hp⟩ | ⟨hu, hs, hp⟩
    · exact Or.inl ⟨⟨hu.startReq, hu.room, hu.ready⟩, hs, hp⟩
    · exact Or.inr ⟨⟨hu.startReq, hu.room, hu.ready⟩, hs, hp⟩
  · intro u hcase
    rcases hcase with ⟨hu, hs, hp⟩ | ⟨hu, hs, hp⟩
    · obtain ⟨v, hv, -, -, hp'⟩ := hstep u hu hs hp
      exact (machine δ).canExit_step hv
        ((machine δ).canExit_now (v.exits_transmittedWait.mpr ⟨a, hp'⟩))
    · exact (machine δ).canExit_now (u.exits_transmittedWait.mpr ⟨a, hp⟩)
  · intro u hcase he
    rcases hcase with ⟨hu, hs, hp⟩ | ⟨hu, hs, hp⟩
    · obtain ⟨a', ha'⟩ := u.exits_transmittedWait.mp he
      rw [hp] at ha'
      exact nomatch ha'
    · exact ⟨⟨hu.startReq, hu.room, hu.ready⟩, hs, Or.inr hp⟩

theorem canExit_i2cStop_loaded (hs : Loaded a R s) :
    wp (machine δ) G (machine δ).CanExit (fun _ t => Closing A R t) i2cStop s := by
  refine wp_op (Loaded a R) hs (fun u v hu _ hv => ?_) (fun u hu _ => ?_)
  · obtain ⟨-, hs, hp | hp⟩ := hu <;>
      exact absurd hv (hwStep_still_ne (by rw [hp]; rfl) hs)
  · obtain ⟨hu, hs, hp⟩ := hu
    refine ⟨⟨hu.startReq, hu.room, hu.ready⟩, rfl, Or.inl ?_⟩
    rcases (show u.phase = _ ∨ u.phase = _ from hp) with hp | hp <;>
      exact congrArg Phase.still hp

/-! ## Receiving -/

/-- A byte that comes in early ends the transfer only where ACK is clear, and only
under a guard that lets it come in early. -/
theorem Incoming.step (hR : Serves A R) (ha : A a) (h : Incoming G a R s)
    (hearly : ¬ Blocked G) (ht : s.hwStep = some t) :
    Incoming G a R t ∧ t.ack = s.ack := by
  obtain ⟨hb, hs, hp | ⟨hp, -, -⟩⟩ := h
  · obtain ⟨hb', hs', hack, hrx, hp'⟩ := hwStep_incoming hR ha hb hp ht
    refine ⟨⟨hb', hs'.trans hs, ?_⟩, hack⟩
    rw [hp']
    split
    · exact Or.inl rfl
    · exact Or.inr ⟨rfl, hrx, hearly⟩
  · exact absurd ht (hwStep_still_ne (by rw [hp]; rfl) hs)

theorem canExit_i2cStart_receiver {device : Byte} (hR : Serves A R)
    (ha : A (device.setWidth 7)) (hs : Settled A R s) :
    wp (machine δ) G (machine δ).CanExit (fun _ t => Incoming G (device.setWidth 7) R t)
      (i2cStart (device <<< 1) i2cDirectionReceiver) s := by
  unfold i2cStart
  refine canExit_startHead hR hs fun s₁ h₁ => ?_
  have hdir : ¬ i2cDirectionReceiver = i2cDirectionTransmitter := by decide
  rw [if_neg hdir, if_pos rfl]
  set b := addressByte (device <<< 1) i2cDirectionReceiver with hb
  have htarget : World.target b = device.setWidth 7 := World.target_addressByte device _
  have hbit : b.getLsbD 0 = true := World.addressByte_receiver _
  rw [← htarget] at ha ⊢
  have hstep : ∀ u v, Called b R u → u.hwStep = some v →
      Incoming G (World.target b) R v ∧ v.addrFlag = true := by
    intro u v hu hv
    obtain ⟨hb, hs, hf, hp⟩ := hu.step hR ha hv
    rw [hbit, if_pos rfl] at hp
    exact ⟨⟨hb, hs, Or.inl hp⟩, hf⟩
  have hexit : ∀ u, Incoming G (World.target b) R u ∧ u.addrFlag = true →
      u.exits receiverWait = true := by
    intro u hcase
    obtain ⟨⟨-, -, hp⟩, hf⟩ := hcase
    refine u.exits_receiverWait.mpr ⟨hf, ?_⟩
    rcases hp with hp | ⟨hp, -⟩ <;> rw [hp] <;> exact nofun
  refine wp_await (fun t => Called b R t ∨
    Incoming G (World.target b) R t ∧ t.addrFlag = true) (Or.inl h₁) ?_ ?_ ?_ ?_
  · intro u v hcase hg hv
    rcases hcase with hu | hu
    · exact Or.inr (hstep u v hu hv)
    · have hearly := not_blocked_of_exits hg (hexit u hu)
      exact Or.inr ⟨(hu.1.step hR ha hearly hv).1, (World.hwStep_addrFlag
        (by rintro b' hp; rcases hu.1.2.2 with hp' | ⟨hp', -⟩ <;> rw [hp] at hp' <;>
              exact nomatch hp') hv).trans hu.2⟩
  · intro u hcase he
    rcases hcase with ⟨hu, hs, hf, hp⟩ | hu
    · exact Or.inl ⟨⟨hu.startReq, hu.room, hu.ready⟩, hs, rfl, hp⟩
    · exact absurd ((hexit u hu).symm.trans he) nofun
  · intro u hcase
    rcases hcase with hu | hu
    · obtain ⟨v, hv⟩ := hu.hwStep hR ha
      exact (machine δ).canExit_step hv ((machine δ).canExit_now (hexit v (hstep u v hu hv)))
    · exact (machine δ).canExit_now (hexit u hu)
  · intro u hcase he
    rcases hcase with ⟨-, -, hf, -⟩ | ⟨⟨hu, hs, hp⟩, -⟩
    · exact absurd (hf.symm.trans (u.exits_receiverWait.mp he).1) nofun
    · exact ⟨⟨hu.startReq, hu.room, hu.ready⟩, hs, hp⟩

/-- While ACK is set and no STOP requested, the device goes on sending. -/
theorem Live.step (hR : Serves A R) (ha : A a) (h : Live a R s) (ht : s.hwStep = some t) :
    Live a R t := by
  obtain ⟨hb, hs, hack, hp⟩ := h
  obtain ⟨hb', hs', hack', -, hp'⟩ := hwStep_incoming hR ha hb hp ht
  refine ⟨hb', hs'.trans hs, hack'.trans hack, ?_⟩
  rw [hp', hack, hs]
  rfl

theorem canExit_i2cReadAck (hG : Orderly G) (hR : Serves A R) (ha : A a)
    (hs : Incoming G a R s) :
    wp (machine δ) G (machine δ).CanExit (fun _ t => Live a R t) i2cReadAck s := by
  have hack : wp (machine δ) G (machine δ).CanExit (fun _ t => Live a R t)
      (i2cAcknowledgeConfig true) s := by
    refine wp_op (Incoming G a R) hs ?_ ?_
    · exact fun u v hu hg hv => (hu.step hR ha (not_blocked_accessing hg) hv).1
    · intro u hcase hg
      obtain ⟨hu, hs, hp⟩ := hcase
      refine ⟨⟨hu.startReq, hu.room, hu.ready⟩, hs, rfl, ?_⟩
      rcases hp with hp | ⟨hp, -, hearly⟩
      · exact hp
      · obtain ⟨a', ha'⟩ := hG.ack hearly u hg
        exact nomatch hp.symm.trans ha'
  unfold i2cReadAck
  refine wp_seq hack fun _ s₁ h₁ => ?_
  have hwait : wp (machine δ) G (machine δ).CanExit (fun _ t => Live a R t)
      (untilEvent i2cEventMasterByteReceived) s₁ := by
    refine wp_await (Live a R) h₁ (fun _ _ h _ ht => h.step hR ha ht) ?_ ?_ ?_
    · exact fun u ⟨hu, hs, hack, hp⟩ _ => ⟨⟨hu.startReq, hu.room, hu.ready⟩, hs, hack, hp⟩
    · exact fun u hu => canExit_receivedWait hR ha hu.1 (Or.inl hu.2.2.2)
    · exact fun u ⟨hu, hs, hack, hp⟩ _ => ⟨⟨hu.startReq, hu.room, hu.ready⟩, hs, hack, hp⟩
  refine wp_seq hwait fun _ s₂ h₂ => ?_
  refine wp_op (Live a R) h₂ (fun _ _ h _ ht => h.step hR ha ht) ?_
  intro u ⟨hu, hs, hack, hp⟩ _
  have htail : u.rx.tail.length ≤ 2 := by
    have hroom := hu.room
    rw [List.length_tail]
    omega
  exact ⟨⟨hu.startReq, htail, hu.ready⟩, hs, hack, hp⟩

theorem canExit_i2cReadNack (hG : Orderly G) (hR : Serves A R) (ha : A a)
    (hs : Incoming G a R s) :
    wp (machine δ) G (machine δ).CanExit (fun _ t => Closing A R t) i2cReadNack s := by
  have hnack : wp (machine δ) G (machine δ).CanExit (fun _ t => Incoming G a R t)
      (i2cAcknowledgeConfig false) s := by
    refine wp_op (Incoming G a R) hs ?_ ?_
    · exact fun u v hu hg hv => (hu.step hR ha (not_blocked_accessing hg) hv).1
    · exact fun u ⟨hu, hs, hp⟩ _ => ⟨⟨hu.startReq, hu.room, hu.ready⟩, hs, hp⟩
  unfold i2cReadNack
  refine wp_seq hnack fun _ s₁ h₁ => ?_
  have hstop : wp (machine δ) G (machine δ).CanExit (fun _ t => Final a R t)
      i2cGenerateStop s₁ := by
    refine wp_op (Incoming G a R) h₁ ?_ ?_
    · exact fun u v hu hg hv => (hu.step hR ha (not_blocked_accessing hg) hv).1
    · exact fun u ⟨hu, hs, hp⟩ _ => ⟨⟨hu.startReq, hu.room, hu.ready⟩, rfl,
        hp.imp_right fun h => ⟨h.1, h.2.1⟩⟩
  refine wp_seq hstop fun _ s₂ h₂ => ?_
  have hfinal : ∀ u v, Final a R u → u.hwStep = some v → u.phase = .receiver a →
      Final a R v ∧ v.rx ≠ [] := by
    intro u v hu hv hp
    obtain ⟨hb', hs', -, hrx, hp'⟩ := hwStep_incoming hR ha hu.1 hp hv
    rw [hu.2.1, Bool.not_true, Bool.and_false, if_neg Bool.false_ne_true] at hp'
    exact ⟨⟨hb', hs'.trans hu.2.1, Or.inr ⟨hp', hrx⟩⟩, hrx⟩
  have hwait : wp (machine δ) G (machine δ).CanExit (fun _ t => Final a R t ∧ t.rx ≠ [])
      (untilEvent i2cEventMasterByteReceived) s₂ := by
    refine wp_await (Final a R) h₂ ?_ ?_ ?_ ?_
    · intro u v hu hg hv
      rcases hu.2.2 with hp | ⟨hp, hrx⟩
      · exact (hfinal u v hu hv hp).1
      · -- the STOP must not go out before the poll that sees the byte
        obtain ⟨c, hc, he⟩ := hG.stop _ u hg (by rw [hp]; rfl) hu.2.1
        obtain rfl : receivedWait = c := Ctl.waiting.inj hc
        have hexit := u.exits_receivedWait.mpr ⟨hrx, by rw [hp]; exact nofun⟩
        exact absurd (hexit.symm.trans he) nofun
    · exact fun u ⟨hu, hs, hp⟩ _ => ⟨⟨hu.startReq, hu.room, hu.ready⟩, hs, hp⟩
    · exact fun u hu => canExit_receivedWait hR ha hu.1 hu.2.2
    · exact fun u ⟨hu, hs, hp⟩ he => ⟨⟨⟨hu.startReq, hu.room, hu.ready⟩, hs, hp⟩,
        (u.exits_receivedWait.mp he).1⟩
  refine wp_seq hwait fun _ s₃ h₃ => ?_
  refine wp_op (fun t => Final a R t ∧ t.rx ≠ []) h₃ ?_ ?_
  · intro u v hcase hg hv
    obtain ⟨hu, hrx⟩ := hcase
    rcases hu.2.2 with hp | ⟨hp, -⟩
    · exact hfinal u v hu hv hp
    · obtain ⟨c, hc, -⟩ := hG.stop _ u hg (by rw [hp]; rfl) hu.2.1
      exact nomatch hc
  · intro u hcase _
    obtain ⟨⟨hu, hs, hp⟩, hrx⟩ := hcase
    have hlen : u.rx.tail.length ≤ 1 := by
      have hroom := hu.room
      rw [List.length_tail]
      omega
    refine ⟨⟨hu.startReq, Nat.le_succ_of_le hlen, hu.ready⟩, hs, ?_⟩
    rcases hp with hp | ⟨hp, -⟩
    · exact Or.inr ⟨a, ha, hp, hlen⟩
    · exact Or.inl (congrArg Phase.still hp)

/-- Between the last poll and the second STOP request the first one must not be
served. -/
theorem Closing.step_accessing {o : Op} (hG : Orderly G) (hR : Serves A R)
    (h : Closing A R s) (hg : G (.accessing o) s .machine) (ht : s.hwStep = some t) :
    Closing A R t := by
  rcases h.step hR ht with h' | ⟨hp, -⟩
  · exact h'
  · obtain ⟨c, hc, -⟩ := hG.stop _ s hg hp h.2.1
    exact nomatch hc

theorem canExit_i2cStop_closing (hG : Orderly G) (hR : Serves A R) (hs : Closing A R s) :
    wp (machine δ) G (machine δ).CanExit (fun _ t => Closing A R t) i2cStop s := by
  refine wp_op (Closing A R) hs (fun u v hu hg hv => hu.step_accessing hG hR hg hv) ?_
  exact fun u ⟨hu, _, hp⟩ _ => ⟨⟨hu.startReq, hu.room, hu.ready⟩, rfl, hp⟩

theorem canExit_readMultiLoop {buf count i : Nat} (hG : Orderly G) (hR : Serves A R)
    (ha : A a) (hi : i < count) (hs : Incoming G a R s) :
    wp (machine δ) G (machine δ).CanExit (fun _ t => Closing A R t)
      (readMultiLoop buf count i) s := by
  induction hk : count - i generalizing i s with
  | zero => omega
  | succ k ih =>
      by_cases hlast : i + 1 = count
      · rw [readMultiLoop_last hlast]
        refine wp_seq (canExit_i2cReadNack hG hR ha hs) fun b s₁ h₁ => ?_
        have hstore : wp (machine δ) G (machine δ).CanExit (fun _ t => Closing A R t)
            (store (buf + i) b) s₁ :=
          wp_op (Closing A R) h₁ (fun u v hu hg hv => hu.step_accessing hG hR hg hv)
            fun u ⟨hu, hs, hp⟩ _ => ⟨⟨hu.startReq, hu.room, hu.ready⟩, hs, hp⟩
        exact wp_seq hstore fun _ s₂ h₂ => canExit_i2cStop_closing hG hR h₂
      · rw [readMultiLoop_more (by omega)]
        refine wp_seq (canExit_i2cReadAck hG hR ha hs) fun b s₁ h₁ => ?_
        have hstore : wp (machine δ) G (machine δ).CanExit (fun _ t => Live a R t)
            (store (buf + i) b) s₁ :=
          wp_op (Live a R) h₁ (fun _ _ h _ ht => h.step hR ha ht)
            fun u ⟨hu, hs, hack, hp⟩ _ => ⟨⟨hu.startReq, hu.room, hu.ready⟩, hs, hack, hp⟩
        exact wp_seq hstore fun _ s₂ h₂ =>
          ih (by omega) ⟨h₂.1, h₂.2.1, Or.inl h₂.2.2.2⟩ (by omega)

/-! ## Whole calls -/

theorem canExit_i2cWriteReg {R'' : (BitVec 7 → Option δ) → Prop} {device register data : Byte}
    (hR : Serves A R) (ha : A (device.setWidth 7))
    (hregister : Takes (device.setWidth 7) R R') (hdata : Takes (device.setWidth 7) R' R'')
    (hs : Settled A R s) :
    wp (machine δ) G (machine δ).CanExit (fun _ t => Settled A R'' t)
      (i2cWriteReg device register data) s := by
  unfold i2cWriteReg
  refine wp_seq (canExit_i2cStart_transmitter hR ha hs) fun _ s₁ h₁ => ?_
  refine wp_seq (canExit_i2cWrite hregister h₁) fun _ s₂ h₂ => ?_
  refine wp_seq (canExit_i2cWrite hdata h₂) fun _ s₃ h₃ => ?_
  exact wp_mono (fun _ _ h => Or.inr h) (canExit_i2cStop_loaded h₃)

/-- The write transfer that precedes every read, and the start of the read. -/
theorem canExit_pointer {α : Type} {Q : α → World δ → Prop} {device register : Byte}
    {k : Driver α} (hR : Serves A R) (hR' : Serves A R') (ha : A (device.setWidth 7))
    (hregister : Takes (device.setWidth 7) R R') (hs : Settled A R s)
    (hk : ∀ t, Incoming G (device.setWidth 7) R' t →
      wp (machine δ) G (machine δ).CanExit Q k t) :
    wp (machine δ) G (machine δ).CanExit Q (do
      i2cStart (device <<< 1) i2cDirectionTransmitter
      i2cWrite register
      i2cStop
      i2cStart (device <<< 1) i2cDirectionReceiver
      k) s := by
  refine wp_seq (canExit_i2cStart_transmitter hR ha hs) fun _ s₁ h₁ => ?_
  refine wp_seq (canExit_i2cWrite hregister h₁) fun _ s₂ h₂ => ?_
  refine wp_seq (canExit_i2cStop_loaded (A := A) h₂) fun _ s₃ h₃ => ?_
  exact wp_seq (canExit_i2cStart_receiver hR' ha (Or.inr h₃)) fun _ s₄ h₄ => hk s₄ h₄

theorem canExit_i2cReadReg {device register : Byte} (hG : Orderly G) (hR : Serves A R)
    (hR' : Serves A R') (ha : A (device.setWidth 7))
    (hregister : Takes (device.setWidth 7) R R') (hs : Settled A R s) :
    wp (machine δ) G (machine δ).CanExit (fun _ t => Settled A R' t)
      (i2cReadReg device register) s := by
  unfold i2cReadReg
  refine canExit_pointer hR hR' ha hregister hs fun s₁ h₁ => ?_
  refine wp_seq (canExit_i2cReadNack hG hR' ha h₁) fun b s₂ h₂ => ?_
  exact wp_seq (canExit_i2cStop_closing hG hR' h₂) fun _ s₃ h₃ => Or.inr h₃

theorem canExit_i2cReadMultiReg {device register count : Byte} {buf : Nat} (hG : Orderly G)
    (hR : Serves A R) (hR' : Serves A R') (ha : A (device.setWidth 7))
    (hregister : Takes (device.setWidth 7) R R') (hcount : 0 < count.toNat)
    (hs : Settled A R s) :
    wp (machine δ) G (machine δ).CanExit (fun _ t => Settled A R' t)
      (i2cReadMultiReg device register buf count) s := by
  unfold i2cReadMultiReg
  refine canExit_pointer hR hR' ha hregister hs fun s₁ h₁ => ?_
  exact wp_mono (fun _ _ h => Or.inr h) (canExit_readMultiLoop hG hR' ha hcount h₁)

end ImuFirmware
