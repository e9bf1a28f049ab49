/-
Setting up the sensors, up to the sampling loop of `main`.

The three init functions write their registers in order and read an id back, and
`main` lights an LED for each id it expects.  No wait loop looks at AF, so a byte that
is not acknowledged is not reported but ends the program in its wait.
-/
import ImuFirmware.Sensors.Readers

namespace ImuFirmware

open Polling

/-! ## The functions -/

/-- Register writes in order, and then the read of an id register. -/
def initSensor (device : Byte) (writes : List (Byte × Byte)) (id : Byte) : Driver Byte :=
  match writes with
  | [] => i2cReadReg device id
  | (register, data) :: writes => do
      i2cWriteReg device register data
      initSensor device writes id

def adxl345Init : Driver Byte :=
  initSensor adxl345 [(0x2C#8, 0x0B#8), (0x2D#8, 0x08#8), (0x38#8, 0x84#8)] 0x00#8

def gyroInit : Driver Byte :=
  initSensor l3g4200d
    [(0x20#8, 0x4F#8), (0x21#8, 0x00#8), (0x22#8, 0x08#8), (0x23#8, 0x10#8), (0x24#8, 0x00#8)]
    0x0F#8

def compassInit : Driver Byte :=
  initSensor hmc5883l [(0x00#8, 0x18#8), (0x01#8, 0x20#8), (0x02#8, 0x01#8)] 0x0A#8

inductive Led where
  | green
  | orange
  | red
  deriving DecidableEq, Repr

/-- `if (id == expected) LedOn(led);` -/
def ledIf (id expected : Byte) (led : Led) : List Led :=
  if id = expected then [led] else []

/-- `main` up to its sampling loop, with the LEDs it has switched on. -/
def mainSetup : Driver (List Led) := do
  let accId ← adxl345Init
  let gyroId ← gyroInit
  let compassId ← compassInit
  pure (ledIf accId 0xE5#8 .red ++ ledIf gyroId 0xD3#8 .green ++ ledIf compassId 0x48#8 .orange)

/-! ## Acknowledgements -/

/-- A register file that acknowledges its `n`-th data byte as `acks n` says. -/
structure Sensor where
  file : RegisterFile
  acks : Nat → Bool
  seen : Nat

instance : Device Sensor where
  select reading d := { d with file := Device.select reading d.file }
  put b d :=
    if d.acks d.seen then
      (Device.put b d.file).map fun file => { d with file := file, seen := d.seen + 1 }
    else none
  get d := ((Device.get d.file).1, { d with file := (Device.get d.file).2 })

/-- The next `n` data bytes will be acknowledged. -/
def Sensor.Willing (n : Nat) (d : Sensor) : Prop := ∀ i, i < n → d.acks (d.seen + i) = true

/-- There is a device at `a`, and it acknowledges its first `n` data bytes. -/
def Acknowledged (n : Nat) (a : BitVec 7) (D : BitVec 7 → Option Sensor) : Prop :=
  ∃ d, D a = some d ∧ d.Willing n

theorem Sensor.willing_succ {n : Nat} {d d' : Sensor} {b : Byte}
    (h : Device.put b d = some d') : d.Willing (n + 1) ↔ d'.Willing n := by
  simp only [Device.put] at h
  split at h
  case isFalse => exact nomatch h
  case isTrue hack =>
    obtain ⟨file, -, rfl⟩ := Option.map_eq_some_iff.mp h
    constructor
    · intro hd i hi
      have := hd (i + 1) (by omega)
      rwa [← Nat.add_assoc, Nat.add_right_comm] at this
    · intro hd i hi
      cases i with
      | zero => exact hack
      | succ i =>
          rw [← Nat.add_assoc, Nat.add_right_comm]
          exact hd i (by omega)

theorem Sensor.put_willing {n : Nat} {d : Sensor} (b : Byte) (h : d.Willing (n + 1)) :
    ∃ d', Device.put b d = some d' ∧ d'.Willing n := by
  obtain ⟨file, hfile⟩ := Option.isSome_iff_exists.mp (RegisterFile.put_isSome b d.file)
  have hput : Device.put b d = some { d with file := file, seen := d.seen + 1 } := by
    show (if d.acks d.seen = true then _ else _) = _
    rw [if_pos (show d.acks d.seen = true from h 0 (by omega)), hfile]
    rfl
  exact ⟨_, hput, (Sensor.willing_succ hput).mp h⟩

theorem Sensor.willing_written {n : Nat} {d d' : Sensor} {register data : Byte}
    (h : written register data d = some d') : d.Willing (n + 2) ↔ d'.Willing n := by
  obtain ⟨e, he, hd'⟩ := Option.bind_eq_some_iff.mp h
  exact (Sensor.willing_succ (n := n + 1) he).trans (Sensor.willing_succ hd')

theorem Sensor.willing_pointed {d d' : Sensor} {register : Byte}
    (h : pointed register d = some d') : d.Willing 1 := by
  obtain ⟨e, he, -⟩ := Option.map_eq_some_iff.mp h
  exact (Sensor.willing_succ (n := 0) he).mpr fun i hi => absurd hi (Nat.not_lt_zero i)

/-! ## What a run that returns has seen acknowledged -/

/-- ACK is clear before every move. -/
def AckClear : Guard sig (World Sensor) := fun _ s _ => s.ack = false

theorem ackClear_paced (n : Nat) : Paced n 1 AckClear := fun _ _ hg _ _ => Or.inl fun _ => hg

/-- The driver sets ACK in `I2C_read_ack` alone. -/
abbrev LeavesAck {α : Type} (p : Driver α) : Prop :=
  Prog.Only (S := sig) (· ≠ .acknowledgeConfig true) p

theorem leavesAck_op {o : Op} (h : o ≠ .acknowledgeConfig true) :
    LeavesAck (Prog.op (S := sig) o) :=
  ⟨h, fun _ => trivial⟩

theorem leavesAck_i2cStart (address direction : Byte) : LeavesAck (i2cStart address direction) := by
  unfold i2cStart
  refine Prog.only_bind trivial fun _ => Prog.only_bind (leavesAck_op nofun) fun _ => ?_
  refine Prog.only_bind trivial fun _ => Prog.only_bind (leavesAck_op nofun) fun _ => ?_
  split
  · trivial
  · split <;> trivial

theorem leavesAck_i2cWrite (data : Byte) : LeavesAck (i2cWrite data) :=
  Prog.only_bind (leavesAck_op nofun) fun _ => trivial

theorem leavesAck_i2cReadNack : LeavesAck i2cReadNack :=
  Prog.only_bind (leavesAck_op (by decide)) fun _ => Prog.only_bind (leavesAck_op nofun) fun _ =>
    Prog.only_bind trivial fun _ => leavesAck_op nofun

theorem leavesAck_initSensor (device : Byte) (writes : List (Byte × Byte)) (id : Byte) :
    LeavesAck (initSensor device writes id) := by
  induction writes with
  | nil =>
      refine Prog.only_bind (leavesAck_i2cStart _ _) fun _ => ?_
      refine Prog.only_bind (leavesAck_i2cWrite _) fun _ => ?_
      refine Prog.only_bind (leavesAck_op nofun) fun _ => ?_
      refine Prog.only_bind (leavesAck_i2cStart _ _) fun _ => ?_
      refine Prog.only_bind leavesAck_i2cReadNack fun _ => ?_
      exact Prog.only_bind (leavesAck_op nofun) fun _ => trivial
  | cons w writes ih =>
      have hwrite : LeavesAck (i2cWriteReg device w.1 w.2) := by
        refine Prog.only_bind (leavesAck_i2cStart _ _) fun _ => ?_
        refine Prog.only_bind (leavesAck_i2cWrite _) fun _ => ?_
        exact Prog.only_bind (leavesAck_i2cWrite _) fun _ => leavesAck_op nofun
      exact Prog.only_bind hwrite fun _ => ih

theorem keeps_ackClear {α : Type} {p : Driver α} (hp : LeavesAck p)
    (devs : BitVec 7 → Option Sensor) (m : Nat → Byte) (ms : List Move) :
    (machine Sensor).Keeps AckClear ms ⟨p, World.boot devs m, []⟩ := by
  refine (machine Sensor).keeps_of_only (I := fun s => s.ack = false) ?_ ?_ ?_ ms hp rfl
  · intro o s ho hs
    cases o with
    | acknowledgeConfig enable =>
        cases enable with
        | true => exact absurd rfl ho
        | false => rfl
    | writeDr b =>
        obtain ⟨p, hp⟩ := s.writeDr_phase b
        show (s.writeDr b).ack = false
        rw [hp]
        exact hs
    | _ => exact hs
  · intro w s hs
    cases w <;> exact hs
  · exact fun s t hs ht => (World.hwStep_ack ht).trans hs

variable {D : BitVec 7 → Option Sensor} {m : Nat → Byte} {c : List (Byte × Bool)}
  {s t : World Sensor}

/-- An init function that returns has had every byte acknowledged, and has touched no
other device. -/
theorem wp_initSensor {device id : Byte} {writes : List (Byte × Byte)} (hs : Quiet D m c s) :
    wp (machine Sensor) AckClear anyWait
      (fun _ t => Acknowledged (2 * writes.length + 1) (device.setWidth 7) D ∧
        ∃ d c', Quiet (Function.update D (device.setWidth 7) (some d)) m c' t)
      (initSensor device writes id) s := by
  induction writes generalizing D s with
  | nil =>
      refine wp_mono ?_ (wp_i2cReadReg (ackClear_paced _) hs)
      intro b t ⟨d, d', hd, hd', _, ht⟩
      exact ⟨⟨d, hd, Sensor.willing_pointed hd'⟩, _, _, ht⟩
  | cons w writes ih =>
      refine wp_seq (wp_i2cWriteReg hs) fun _ s₁ ⟨d, d', hd, hd', h₁⟩ => ?_
      refine wp_mono ?_ (ih h₁)
      intro b t ⟨⟨e, he, hwilling⟩, e', c', ht⟩
      rw [Function.update_self] at he
      obtain rfl := Option.some.inj he
      rw [Function.update_idem] at ht
      exact ⟨⟨d, hd, (Sensor.willing_written hd').mpr hwilling⟩, e', c', ht⟩

/-! ## Runs on willing devices -/

/-- Each device at the addresses `A` is there and acknowledges its next `n a` bytes. -/
def Ready (A : BitVec 7 → Prop) (n : BitVec 7 → Nat) (D : BitVec 7 → Option Sensor) : Prop :=
  ∀ a, A a → Acknowledged (n a) a D

variable {A : BitVec 7 → Prop} {n : BitVec 7 → Nat} {a : BitVec 7} {k : Nat}
  {G : Guard sig (World Sensor)}

theorem Ready.update {d : Sensor} (h : Ready A n D) (hd : d.Willing k) :
    Ready A (Function.update n a k) (Function.update D a (some d)) := by
  intro b hb
  by_cases hab : b = a
  · subst hab
    rw [Function.update_self]
    exact ⟨d, Function.update_self .., hd⟩
  · rw [Function.update_of_ne hab]
    obtain ⟨e, he, hwilling⟩ := h b hb
    exact ⟨e, by rw [Function.update_of_ne hab, he], hwilling⟩

theorem Ready.update_same {d d' : Sensor} (h : Ready A n D) (ha : A a) (hd : D a = some d)
    (hsame : ∀ k, d.Willing k → d'.Willing k) : Ready A n (Function.update D a (some d')) := by
  obtain ⟨e, he, hwilling⟩ := h a ha
  obtain rfl := Option.some.inj (he.symm.trans hd)
  have h' := h.update (a := a) (hsame _ hwilling)
  rwa [Function.update_eq_self] at h'

theorem serves_ready : Serves A (Ready A n) where
  present := fun D a hD ha => by
    obtain ⟨d, hd, -⟩ := hD a ha
    exact ⟨d, hd⟩
  select := fun _ _ _ _ hD ha hd => hD.update_same ha hd fun _ h => h
  get := fun _ _ _ hD ha hd => hD.update_same ha hd fun _ h => h

theorem takes_ready (ha : A a) (hn : n a = k + 1) :
    Takes a (Ready A n) (Ready A (Function.update n a k)) := by
  intro D b hD
  obtain ⟨d, hd, hwilling⟩ := hD a ha
  rw [hn] at hwilling
  obtain ⟨d', hd', hwilling'⟩ := Sensor.put_willing b hwilling
  exact ⟨d, d', hd, hd', hD.update hwilling'⟩

/-- An init function whose device acknowledges its bytes does not get stuck. -/
theorem canExit_initSensor {device id : Byte} {writes : List (Byte × Byte)}
    (hG : Orderly G) (ha : A (device.setWidth 7))
    (hn : n (device.setWidth 7) = 2 * writes.length + 1) (hs : Settled A (Ready A n) s) :
    wp (machine Sensor) G (machine Sensor).CanExit
      (fun _ t => Settled A (Ready A (Function.update n (device.setWidth 7) 0)) t)
      (initSensor device writes id) s := by
  induction writes generalizing n s with
  | nil =>
      exact canExit_i2cReadReg hG serves_ready serves_ready ha (takes_ready ha hn) hs
  | cons w writes ih =>
      have hregister : Takes (device.setWidth 7) (Ready A n) _ :=
        takes_ready (k := 2 * writes.length + 2) ha hn
      have hdata := takes_ready (k := 2 * writes.length + 1) ha
        (Function.update_self (device.setWidth 7) (2 * writes.length + 2) n)
      rw [Function.update_idem] at hdata
      refine wp_seq (canExit_i2cWriteReg serves_ready ha hregister hdata hs) fun _ s₁ h₁ => ?_
      have hrest := ih (Function.update_self ..) h₁
      rwa [Function.update_idem] at hrest

/-! ## Reporting -/

/-- A sensor on the board: its init function and address, the number of data bytes it is
sent, and the id that lights its LED. -/
structure Part where
  init : Driver Byte
  address : BitVec 7
  bytes : Nat
  expected : Byte
  led : Led
  shape : ∃ device writes id, init = initSensor device writes id ∧
    address = device.setWidth 7 ∧ bytes = 2 * writes.length + 1

def accPart : Part := ⟨adxl345Init, 0x53#7, 7, 0xE5#8, .red, ⟨_, _, _, rfl, rfl, rfl⟩⟩

def gyroPart : Part := ⟨gyroInit, 0x69#7, 11, 0xD3#8, .green, ⟨_, _, _, rfl, rfl, rfl⟩⟩

def compassPart : Part := ⟨compassInit, 0x1E#7, 7, 0x48#8, .orange, ⟨_, _, _, rfl, rfl, rfl⟩⟩

def parts : List Part := [accPart, gyroPart, compassPart]

theorem wp_part (x : Part) (hs : Quiet D m c s) :
    wp (machine Sensor) AckClear anyWait
      (fun _ t => Acknowledged x.bytes x.address D ∧
        ∃ d c', Quiet (Function.update D x.address (some d)) m c' t) x.init s := by
  obtain ⟨device, writes, id, hinit, haddress, hbytes⟩ := x.shape
  rw [hinit, haddress, hbytes]
  exact wp_initSensor hs

theorem leavesAck_part (x : Part) : LeavesAck x.init := by
  obtain ⟨device, writes, id, hinit, -, -⟩ := x.shape
  rw [hinit]
  exact leavesAck_initSensor device writes id

theorem canExit_part (x : Part) (hG : Orderly G) (ha : A x.address)
    (hn : n x.address = x.bytes) (hs : Settled A (Ready A n) s) :
    wp (machine Sensor) G (machine Sensor).CanExit
      (fun _ t => Settled A (Ready A (Function.update n x.address 0)) t) x.init s := by
  obtain ⟨device, writes, id, hinit, haddress, hbytes⟩ := x.shape
  rw [haddress] at ha hn ⊢
  rw [hinit]
  exact canExit_initSensor hG ha (hn.trans hbytes) hs

/-- `p` can be run to its end, and in the timely runs no wait loop gets stuck, the bus is
released on return, and the result is as `ok` says. -/
def Reported {α : Type} (p : Driver α) (ok : α → Prop) (s : World Sensor) : Prop :=
  (∃ ms a t, (machine Sensor).Returns ms p s a t) ∧
  ∀ ms d, (machine Sensor).Keeps Timely ms ⟨p, s, []⟩ →
    (machine Sensor).run ms ⟨p, s, []⟩ = some d →
    ¬ (machine Sensor).Stuck d ∧
    ∀ a t, d.result = some (a, t) → ok a ∧ (machine Sensor).CanExit busyWait t

theorem reported_of_canExit {α : Type} {p : Driver α} {ok : α → Prop} (hok : ∀ a, ok a)
    (hp : ∀ G, Orderly G → wp (machine Sensor) G (machine Sensor).CanExit
      (fun _ t => (machine Sensor).CanExit busyWait t) p s) : Reported p ok s := by
  constructor
  · obtain ⟨ms, a, t, hret, -⟩ := wp_finishes (hp _ orderly_inTurn)
    exact ⟨ms, a, t, hret⟩
  · intro ms d hkeep hrun
    refine ⟨not_stuck_of_wp (hp _ orderly_timely) hkeep hrun, fun a t hres => ⟨hok a, ?_⟩⟩
    have hd := wp_run (c := ⟨p, s, []⟩) (hp _ orderly_timely) hkeep hrun
    obtain ⟨q, u, log⟩ := d
    cases q with
    | done b =>
        obtain ⟨rfl, rfl⟩ := Prod.mk.inj (Option.some.inj hres)
        exact hd
    | access o k => exact nomatch hres
    | wait w k => exact nomatch hres

theorem settled_ready {devs : BitVec 7 → Option Sensor} (h : Ready A n devs) (m : Nat → Byte) :
    Settled A (Ready A n) (World.boot devs m) :=
  Or.inl ⟨⟨rfl, Nat.zero_le 2, h⟩, rfl, rfl⟩

/-- An init function reports its device exactly when the device is there and
acknowledges every byte it is sent. -/
theorem init_reported_iff (x : Part) (devs : BitVec 7 → Option Sensor) (m : Nat → Byte) :
    Reported x.init (fun id => devs x.address = none → id ≠ x.expected) (World.boot devs m) ↔
      Acknowledged x.bytes x.address devs := by
  constructor
  · intro hcase
    obtain ⟨⟨ms, id, t, hret⟩, -⟩ := hcase
    have hkeep := keeps_ackClear (leavesAck_part x) devs m ms
    exact (wp_returns (wp_part x (quiet_boot devs m)) hkeep hret).1
  · intro hcase
    obtain ⟨d, hd, hwilling⟩ := hcase
    have hready : Ready (x.address = ·) (fun _ => x.bytes) devs := by
      intro a ha
      rw [← ha]
      exact ⟨d, hd, hwilling⟩
    refine reported_of_canExit (fun id hnone => ?_) fun G hG =>
      wp_mono (fun _ _ h => h.canExit serves_ready)
        (canExit_part x hG rfl rfl (settled_ready hready m))
    rw [hd] at hnone
    exact nomatch hnone

theorem Acknowledged.of_update {b : BitVec 7} {o : Option Sensor} (hne : a ≠ b)
    (h : Acknowledged k a (Function.update D b o)) : Acknowledged k a D := by
  obtain ⟨d, hd, hwilling⟩ := h
  rw [Function.update_of_ne hne] at hd
  exact ⟨d, hd, hwilling⟩

theorem forall_parts {P : Part → Prop} :
    (∀ x ∈ parts, P x) ↔ P accPart ∧ P gyroPart ∧ P compassPart := by
  simp [parts]

theorem wp_mainSetup (hs : Quiet D m c s) :
    wp (machine Sensor) AckClear anyWait
      (fun _ _ => ∀ x ∈ parts, Acknowledged x.bytes x.address D) mainSetup s := by
  unfold mainSetup
  refine wp_seq (wp_part accPart hs) fun accId s₁ ⟨hacc, d₁, c₁, h₁⟩ => ?_
  refine wp_seq (wp_part gyroPart h₁) fun gyroId s₂ ⟨hgyro, d₂, c₂, h₂⟩ => ?_
  refine wp_seq (wp_part compassPart h₂) fun compassId s₃ ⟨hcompass, _⟩ => ?_
  have hcompass' := (hcompass.of_update (by decide)).of_update (by decide)
  exact forall_parts.mpr ⟨hacc, hgyro.of_update (by decide), hcompass'⟩

/-- The data bytes of each of the three. -/
def partBytes (a : BitVec 7) : Nat :=
  if a = gyroPart.address then gyroPart.bytes else accPart.bytes

def onBoard (a : BitVec 7) : Prop := ∃ x ∈ parts, x.address = a

theorem canExit_mainSetup (hG : Orderly G) (hs : Settled onBoard (Ready onBoard partBytes) s) :
    wp (machine Sensor) G (machine Sensor).CanExit
      (fun _ t => (machine Sensor).CanExit busyWait t) mainSetup s := by
  have hon : ∀ x ∈ parts, onBoard x.address := fun x hx => ⟨x, hx, rfl⟩
  obtain ⟨hacc, hgyro, hcompass⟩ := forall_parts.mp hon
  unfold mainSetup
  refine wp_seq (canExit_part accPart hG hacc rfl hs) fun accId s₁ h₁ => ?_
  refine wp_seq (canExit_part gyroPart hG hgyro rfl h₁) fun gyroId s₂ h₂ => ?_
  exact wp_seq (canExit_part compassPart hG hcompass rfl h₂) fun compassId s₃ h₃ =>
    h₃.canExit serves_ready

/-- Neither an absent nor a refusing sensor is reported: the init functions and `main` up
to its loop do what they should exactly on boards that acknowledge every byte. -/
theorem setup_reported_iff (devs : BitVec 7 → Option Sensor) (m : Nat → Byte) :
    (∀ x ∈ parts,
      (Reported x.init (fun id => devs x.address = none → id ≠ x.expected) (World.boot devs m) ↔
        Acknowledged x.bytes x.address devs)) ∧
    (Reported mainSetup (fun leds => ∀ x ∈ parts, devs x.address = none → x.led ∉ leds)
        (World.boot devs m) ↔
      ∀ x ∈ parts, Acknowledged x.bytes x.address devs) := by
  refine ⟨fun x _ => init_reported_iff x devs m, ?_, fun hack => ?_⟩
  · intro hcase
    obtain ⟨⟨ms, leds, t, hret⟩, -⟩ := hcase
    have hleaves : LeavesAck mainSetup :=
      Prog.only_bind (leavesAck_part accPart) fun _ => Prog.only_bind (leavesAck_part gyroPart)
        fun _ => Prog.only_bind (leavesAck_part compassPart) fun _ => trivial
    exact wp_returns (wp_mainSetup (quiet_boot devs m)) (keeps_ackClear hleaves devs m ms) hret
  · have hready : Ready onBoard partBytes devs := by
      intro a hcase
      obtain ⟨x, hx, rfl⟩ := hcase
      have hbytes : ∀ x ∈ parts, partBytes x.address = x.bytes := forall_parts.mpr ⟨rfl, rfl, rfl⟩
      rw [hbytes x hx]
      exact hack x hx
    refine reported_of_canExit (fun leds x hx hnone => ?_) fun G hG =>
      canExit_mainSetup hG (settled_ready hready m)
    obtain ⟨d, hd, -⟩ := hack x hx
    rw [hnone] at hd
    exact nomatch hd

/-! ## Two boards -/

/-- Nothing answers. -/
def absentBoard : World Sensor := World.boot (fun _ => none) fun _ => 0x00#8

/-- Something answers everywhere and takes no data byte. -/
def refusingBoard : World Sensor :=
  World.boot (fun _ => some ⟨⟨fun _ => 0x00#8, 0x00#8, false⟩, fun _ => false, 0⟩) fun _ => 0x00#8

/-- Up to the address byte of the first transfer. -/
def callMoves : List Move := [.program, .program, .machine, .program, .program, .machine]

theorem stuck_of_run {s : World Sensor} {ms : List Move} {w : Wait}
    (hrun : ((machine Sensor).run ms ⟨mainSetup, s, []⟩).map (fun d =>
      (d.prog.awaiting, d.state.hwStep.isNone, d.state.exits w)) = some (some w, true, false)) :
    ∃ d, (machine Sensor).run ms ⟨mainSetup, s, []⟩ = some d ∧ d.prog.awaiting = some w ∧
      (machine Sensor).Stuck d := by
  obtain ⟨d, hd, hobs⟩ := Option.map_eq_some_iff.mp hrun
  simp only [Prod.mk.injEq] at hobs
  exact ⟨d, hd, hobs.1, (machine Sensor).stuck_of_halted hobs.1
    (Option.isNone_iff_eq_none.mp hobs.2.1) hobs.2.2⟩

/-- Without an ADXL345, `main` sits in `I2C_start` for ever, and with one that refuses a
byte, in `I2C_write`. -/
theorem mainSetup_stuck :
    ((machine Sensor).Keeps Timely callMoves ⟨mainSetup, absentBoard, []⟩ ∧
      ∃ d, (machine Sensor).run callMoves ⟨mainSetup, absentBoard, []⟩ = some d ∧
        d.prog.awaiting = some transmitterWait ∧ (machine Sensor).Stuck d) ∧
    ((machine Sensor).Keeps Timely (callMoves ++ [.program, .program, .machine])
        ⟨mainSetup, refusingBoard, []⟩ ∧
      ∃ d, (machine Sensor).run (callMoves ++ [.program, .program, .machine])
          ⟨mainSetup, refusingBoard, []⟩ = some d ∧
        d.prog.awaiting = some transmittedWait ∧ (machine Sensor).Stuck d) := by
  refine ⟨⟨?_, stuck_of_run (by decide +kernel)⟩, ⟨?_, stuck_of_run (by decide +kernel)⟩⟩
  · exact (machine Sensor).keeps_of_check timely_of_check (by decide +kernel)
  · exact (machine Sensor).keeps_of_check timely_of_check (by decide +kernel)

end ImuFirmware
