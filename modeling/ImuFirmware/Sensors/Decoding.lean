/-
The readers deliver what the sensors hold.

Along every interleaving the six bytes end up in `raw_data`, the loop joins them in
pairs, and encoding the three outputs gives the six bytes back.
-/
import ImuFirmware.Sensors.Footprint

namespace ImuFirmware

open Polling

/-! ## Accesses to memory between moves of the hardware -/

section

variable {δ : Type} [Device δ] {G : Guard sig (World δ)} {s : World δ} {m : Nat → Byte}

theorem wp_load {a : Nat} (hs : s.mem = m) :
    wp (machine δ) G anyWait (fun b t => b = m a ∧ t.mem = m) (load a) s := by
  refine wp_op (fun t => t.mem = m) hs (fun u v hu _ hv => ?_) (fun t ht _ => ⟨?_, ht⟩)
  · exact (World.hwStep_mem hv).trans hu
  · rw [← ht]
    rfl

theorem wp_store {a : Nat} {b : Byte} (hs : s.mem = m) :
    wp (machine δ) G anyWait (fun _ t => t.mem = Function.update m a b) (store a b) s := by
  refine wp_op (fun t => t.mem = m) hs (fun u v hu _ hv => ?_) (fun t ht _ => ?_)
  · exact (World.hwStep_mem hv).trans hu
  · rw [← ht]
    rfl

theorem wp_load16 {a : Nat} (hs : s.mem = m) :
    wp (machine δ) G anyWait (fun v t => v = read16 m a ∧ t.mem = m) (load16 a) s := by
  unfold load16
  refine wp_seq (wp_load hs) fun low s₁ ⟨hlow, h₁⟩ => ?_
  refine wp_seq (wp_load h₁) fun high s₂ ⟨hhigh, h₂⟩ => ?_
  exact ⟨by rw [hlow, hhigh]; rfl, h₂⟩

theorem wp_store16 {a : Nat} {v : BitVec 16} (hs : s.mem = m) :
    wp (machine δ) G anyWait (fun _ t => t.mem = write16 m a v) (store16 a v) s := by
  unfold store16
  exact wp_seq (wp_store hs) fun _ s₁ h₁ => wp_store h₁

/-- Memory after one round of the loop. -/
def convertStep (msb lsb data : Nat) (m : Nat → Byte) : Nat → Byte :=
  write16 m data (joinBytes (m msb) (m lsb))

theorem wp_convert2Sgn {msb lsb data : Nat} (hs : s.mem = m) :
    wp (machine δ) G anyWait (fun _ t => t.mem = convertStep msb lsb data m)
      (convert2Sgn msb lsb data) s := by
  unfold convert2Sgn
  refine wp_seq (wp_load hs) fun high s₁ ⟨hhigh, h₁⟩ => ?_
  refine wp_seq (wp_load h₁) fun low s₂ ⟨hlow, h₂⟩ => ?_
  rw [signedValue_eq, hhigh, hlow]
  exact wp_store16 h₂

/-- Memory after the loop. -/
def converted (msb lsb data : Nat → Nat) (m : Nat → Byte) : Nat → Byte :=
  convertStep (msb 6) (lsb 6) (data 3) (convertStep (msb 4) (lsb 4) (data 2)
    (convertStep (msb 2) (lsb 2) (data 1) (convertStep (msb 0) (lsb 0) (data 0) m)))

theorem wp_convertLoop {msb lsb data : Nat → Nat} (hs : s.mem = m) :
    wp (machine δ) G anyWait (fun _ t => t.mem = converted msb lsb data m)
      (convertLoop msb lsb data 0 0) s := by
  rw [convertLoop_eq]
  refine wp_seq (wp_convert2Sgn hs) fun _ s₁ h₁ => ?_
  refine wp_seq (wp_convert2Sgn h₁) fun _ s₂ h₂ => ?_
  refine wp_seq (wp_convert2Sgn h₂) fun _ s₃ h₃ => ?_
  exact wp_convert2Sgn h₃

end

/-! ## The three outputs -/

def outputs (m : Nat → Byte) (out : Nat) : BitVec 16 × BitVec 16 × BitVec 16 :=
  (read16 m out, read16 m (out + 2), read16 m (out + 4))

/-- The fourth round and the memory next to the arrays have no part in the first three
outputs. -/
theorem outputs_converted {msb lsb : Nat → Nat} {m : Nat → Byte} {out : Nat}
    (hmsb : ∀ i, i < 5 → msb i + 1 ≤ out ∨ out + 6 ≤ msb i)
    (hlsb : ∀ i, i < 5 → lsb i + 1 ≤ out ∨ out + 6 ≤ lsb i) :
    outputs (converted msb lsb (fun j => out + 2 * j) m) out =
      (joinBytes (m (msb 0)) (m (lsb 0)), joinBytes (m (msb 2)) (m (lsb 2)),
        joinBytes (m (msb 4)) (m (lsb 4))) := by
  have hm2 := hmsb 2 (by omega)
  have hm4 := hmsb 4 (by omega)
  have hl2 := hlsb 2 (by omega)
  have hl4 := hlsb 4 (by omega)
  have hfirst : read16 (converted msb lsb (fun j => out + 2 * j) m) out =
      joinBytes (m (msb 0)) (m (lsb 0)) := by
    simp only [converted, convertStep]
    rw [read16_write16_of_ne (by omega), read16_write16_of_ne (by omega),
      read16_write16_of_ne (by omega)]
    exact read16_write16 _ _ _
  have hsecond : read16 (converted msb lsb (fun j => out + 2 * j) m) (out + 2) =
      joinBytes (m (msb 2)) (m (lsb 2)) := by
    simp only [converted, convertStep]
    rw [read16_write16_of_ne (by omega), read16_write16_of_ne (by omega)]
    refine (read16_write16 _ _ _).trans ?_
    rw [write16_of_ne (by omega), write16_of_ne (by omega)]
  have hthird : read16 (converted msb lsb (fun j => out + 2 * j) m) (out + 4) =
      joinBytes (m (msb 4)) (m (lsb 4)) := by
    simp only [converted, convertStep]
    rw [read16_write16_of_ne (by omega)]
    refine (read16_write16 _ _ _).trans ?_
    rw [write16_of_ne (by omega), write16_of_ne (by omega), write16_of_ne (by omega),
      write16_of_ne (by omega)]
  rw [outputs, hfirst, hsecond, hthird]

/-! ## The readers -/

/-- A reader and the encoding of its device: the registers of three axes in order. -/
structure Reader where
  program : Nat → Nat → Driver Unit
  device : Byte
  register : Byte
  encode : BitVec 16 → BitVec 16 → BitVec 16 → List Byte

def lowFirst (a b c : BitVec 16) : List Byte :=
  [lowByte a, highByte a, lowByte b, highByte b, lowByte c, highByte c]

def highFirst (a b c : BitVec 16) : List Byte :=
  [highByte a, lowByte a, highByte b, lowByte b, highByte c, lowByte c]

def adxl345Reader : Reader := ⟨adxl345Data, adxl345, 0x32#8, lowFirst⟩

def gyroReader : Reader := ⟨gyroDecode, l3g4200d, 0xA8#8, lowFirst⟩

def compassReader : Reader := ⟨compassData, hmc5883l, 0x03#8, highFirst⟩

def readers : List Reader := [adxl345Reader, gyroReader, compassReader]

def byteAt (d : RegisterFile) (register : Byte) (i : Nat) : Byte :=
  d.regs (register + BitVec.ofNat 8 i)

def sixRegisters (d : RegisterFile) (register : Byte) : List Byte :=
  (List.range 6).map (byteAt d register)

/-- Some run of the reader, on a device with the registers of `d`, delivers `v` in its
first three outputs.  The arrays lie anywhere, as long as the six bytes of the one and
the three elements of the other do not overlap. -/
def Reads (x : Reader) (d : RegisterFile) (v : BitVec 16 × BitVec 16 × BitVec 16) : Prop :=
  ∃ (s t : World RegisterFile) (ms : List Move) (rawData out : Nat),
    Quiet s.devs s.mem s.clocked s ∧ s.devs (x.device.setWidth 7) = some d ∧
    (out + 6 ≤ rawData ∨ rawData + 6 ≤ out) ∧
    (machine RegisterFile).Returns ms (x.program rawData out) s () t ∧ outputs t.mem out = v

/-- Reading six registers and converting them, along every interleaving. -/
theorem wp_readConvert {G : Guard sig (World RegisterFile)} {s : World RegisterFile}
    {device : Byte} (register : Byte) {rawData out : Nat} {msb lsb : Nat → Nat}
    {d : RegisterFile} (hs : Quiet s.devs s.mem s.clocked s)
    (hd : s.devs (device.setWidth 7) = some d) (hdisjoint : out + 6 ≤ rawData ∨ rawData + 6 ≤ out)
    (hmsb : ∀ i, i < 5 → rawData ≤ msb i ∧ msb i < rawData + 6)
    (hlsb : ∀ i, i < 5 → rawData ≤ lsb i ∧ lsb i < rawData + 6) :
    wp (machine RegisterFile) G anyWait
      (fun _ t => outputs t.mem out =
        (joinBytes (byteAt d register (msb 0 - rawData)) (byteAt d register (lsb 0 - rawData)),
          joinBytes (byteAt d register (msb 2 - rawData)) (byteAt d register (lsb 2 - rawData)),
          joinBytes (byteAt d register (msb 4 - rawData)) (byteAt d register (lsb 4 - rawData))))
      (do
        i2cReadMultiReg device register rawData 6#8
        convertLoop msb lsb (fun j => out + 2 * j) 0 0) s := by
  refine wp_seq (wp_i2cReadMultiReg_buffer (E := False) (by decide) False.elim hs)
    fun _ s₁ ⟨e, e', he, he', _, n, _, hb⟩ => ?_
  obtain rfl := Option.some.inj (hd.symm.trans he)
  rw [RegisterFile.pointed_eq] at he'
  obtain rfl := Option.some.inj he'
  have hbyte : ∀ p, rawData ≤ p ∧ p < rawData + 6 →
      s₁.mem p = byteAt d register (p - rawData) := by
    intro p hp
    rw [hb.mem, writeBytes_eq]
    show (if rawData ≤ p ∧ p < rawData + 6 then _ else _) = _
    rw [if_pos hp, RegisterFile.stream_eq]
    rfl
  refine wp_mono (fun _ t ht => ?_) (wp_convertLoop rfl)
  have hm : ∀ i, i < 5 → msb i + 1 ≤ out ∨ out + 6 ≤ msb i := fun i hi => by
    have := hmsb i hi
    omega
  have hl : ∀ i, i < 5 → lsb i + 1 ≤ out ∨ out + 6 ≤ lsb i := fun i hi => by
    have := hlsb i hi
    omega
  rw [ht, outputs_converted hm hl, hbyte _ (hmsb 0 (by decide)), hbyte _ (hmsb 2 (by decide)),
    hbyte _ (hmsb 4 (by decide)), hbyte _ (hlsb 0 (by decide)), hbyte _ (hlsb 2 (by decide)),
    hbyte _ (hlsb 4 (by decide))]

/-- The even bytes are the low ones. -/
theorem wp_readLowFirst {G : Guard sig (World RegisterFile)} {s : World RegisterFile}
    {device register : Byte} {rawData out : Nat} {d : RegisterFile}
    (hs : Quiet s.devs s.mem s.clocked s) (hd : s.devs (device.setWidth 7) = some d)
    (hdisjoint : out + 6 ≤ rawData ∨ rawData + 6 ≤ out) :
    wp (machine RegisterFile) G anyWait
      (fun _ t => outputs t.mem out =
        (joinBytes (byteAt d register 1) (byteAt d register 0),
          joinBytes (byteAt d register 3) (byteAt d register 2),
          joinBytes (byteAt d register 5) (byteAt d register 4)))
      (do
        i2cReadMultiReg device register rawData 6#8
        convertLoop (fun i => rawData + (i + 1)) (fun i => rawData + i) (fun j => out + 2 * j)
          0 0) s := by
  have hodd : ∀ i, i < 5 → rawData ≤ rawData + (i + 1) ∧ rawData + (i + 1) < rawData + 6 :=
    fun i hi => by omega
  have heven : ∀ i, i < 5 → rawData ≤ rawData + i ∧ rawData + i < rawData + 6 :=
    fun i hi => by omega
  have h := wp_readConvert (G := G) register hs hd hdisjoint hodd heven
  simp only [Nat.add_sub_cancel_left] at h
  exact h

/-- The even bytes are the high ones. -/
theorem wp_readHighFirst {G : Guard sig (World RegisterFile)} {s : World RegisterFile}
    {device register : Byte} {rawData out : Nat} {d : RegisterFile}
    (hs : Quiet s.devs s.mem s.clocked s) (hd : s.devs (device.setWidth 7) = some d)
    (hdisjoint : out + 6 ≤ rawData ∨ rawData + 6 ≤ out) :
    wp (machine RegisterFile) G anyWait
      (fun _ t => outputs t.mem out =
        (joinBytes (byteAt d register 0) (byteAt d register 1),
          joinBytes (byteAt d register 2) (byteAt d register 3),
          joinBytes (byteAt d register 4) (byteAt d register 5)))
      (do
        i2cReadMultiReg device register rawData 6#8
        convertLoop (fun i => rawData + i) (fun i => rawData + (i + 1)) (fun j => out + 2 * j)
          0 0) s := by
  have hodd : ∀ i, i < 5 → rawData ≤ rawData + (i + 1) ∧ rawData + (i + 1) < rawData + 6 :=
    fun i hi => by omega
  have heven : ∀ i, i < 5 → rawData ≤ rawData + i ∧ rawData + i < rawData + 6 :=
    fun i hi => by omega
  have h := wp_readConvert (G := G) register hs hd hdisjoint heven hodd
  simp only [Nat.add_sub_cancel_left] at h
  exact h

theorem lowFirst_join (b : Nat → Byte) :
    lowFirst (joinBytes (b 1) (b 0)) (joinBytes (b 3) (b 2)) (joinBytes (b 5) (b 4)) =
      (List.range 6).map b := by
  simp only [lowFirst, lowByte_joinBytes, highByte_joinBytes]
  rfl

theorem highFirst_join (b : Nat → Byte) :
    highFirst (joinBytes (b 0) (b 1)) (joinBytes (b 2) (b 3)) (joinBytes (b 4) (b 5)) =
      (List.range 6).map b := by
  simp only [highFirst, lowByte_joinBytes, highByte_joinBytes]
  rfl

theorem eq_of_bytes {v w : BitVec 16} (hlow : lowByte v = lowByte w)
    (hhigh : highByte v = highByte w) : v = w := by
  rw [← joinBytes_bytes v, hlow, hhigh, joinBytes_bytes]

/-- Both encodings tell the axes apart. -/
theorem encode_inj {x : Reader} (hx : x ∈ readers) {a b c a' b' c' : BitVec 16}
    (h : x.encode a b c = x.encode a' b' c') : a = a' ∧ b = b' ∧ c = c' := by
  have hlow : lowFirst a b c = lowFirst a' b' c' → a = a' ∧ b = b' ∧ c = c' := by
    intro h
    simp only [lowFirst, List.cons.injEq] at h
    exact ⟨eq_of_bytes h.1 h.2.1, eq_of_bytes h.2.2.1 h.2.2.2.1,
      eq_of_bytes h.2.2.2.2.1 h.2.2.2.2.2.1⟩
  have hhigh : highFirst a b c = highFirst a' b' c' → a = a' ∧ b = b' ∧ c = c' := by
    intro h
    simp only [highFirst, List.cons.injEq] at h
    exact ⟨eq_of_bytes h.2.1 h.1, eq_of_bytes h.2.2.2.1 h.2.2.1,
      eq_of_bytes h.2.2.2.2.2.1 h.2.2.2.2.1⟩
  simp only [readers, List.mem_cons, List.not_mem_nil, or_false] at hx
  rcases hx with rfl | rfl | rfl
  · exact hlow h
  · exact hlow h
  · exact hhigh h

/-- Encoding what a reader delivers gives the six bytes back. -/
theorem encode_reads {x : Reader} (hx : x ∈ readers) {d : RegisterFile}
    {v : BitVec 16 × BitVec 16 × BitVec 16} (h : Reads x d v) :
    x.encode v.1 v.2.1 v.2.2 = sixRegisters d x.register := by
  obtain ⟨s, t, ms, rawData, out, hs, hd, hdisjoint, hret, rfl⟩ := h
  have hkeep : (machine RegisterFile).Keeps (fun _ _ _ => True) ms
      ⟨x.program rawData out, s, []⟩ :=
    (machine RegisterFile).keeps_of_forall (fun _ _ _ => trivial) ms _
  simp only [readers, List.mem_cons, List.not_mem_nil, or_false] at hx
  rcases hx with rfl | rfl | rfl
  · rw [wp_returns (wp_readLowFirst hs hd hdisjoint) hkeep hret]
    exact lowFirst_join _
  · rw [wp_returns (wp_readLowFirst hs hd hdisjoint) hkeep hret]
    exact lowFirst_join _
  · rw [wp_returns (wp_readHighFirst hs hd hdisjoint) hkeep hret]
    exact highFirst_join _

/-- From every settled state with its device on the bus, whatever the memory holds and
wherever the arrays lie, a reader can be run to its end. -/
theorem reader_returns {x : Reader} (hx : x ∈ readers) {s : World RegisterFile}
    (hs : Settled (x.device.setWidth 7 = ·) (Present (x.device.setWidth 7 = ·)) s)
    (rawData out : Nat) :
    ∃ ms t, (machine RegisterFile).Returns ms (x.program rawData out) s () t := by
  have hcount : 0 < (6#8 : Byte).toNat := by decide
  have hreturns : ∃ ms c, (machine RegisterFile).run ms ⟨x.program rawData out, s, []⟩ = some c ∧
      c.result.isSome = true := by
    simp only [readers, List.mem_cons, List.not_mem_nil, or_false] at hx
    rcases hx with rfl | rfl | rfl <;>
      exact readMultiReg_then_returns RegisterFile.put_isSome _ _ _ rfl hcount hs
        (waitFree_convertLoop _ _ _)
  obtain ⟨ms, c, hrun, hret⟩ := hreturns
  obtain ⟨⟨u, t⟩, hres⟩ := Option.isSome_iff_exists.mp hret
  refine ⟨ms, t, ?_⟩
  rw [Machine.Returns, hrun]
  exact hres

/-- On a bus with nothing but its device the reader can be run to its end. -/
theorem exists_reads {x : Reader} (hx : x ∈ readers) (d : RegisterFile) : ∃ v, Reads x d v := by
  let devs : BitVec 7 → Option RegisterFile :=
    Function.update (fun _ => none) (x.device.setWidth 7) (some d)
  have hd : devs (x.device.setWidth 7) = some d := Function.update_self ..
  obtain ⟨ms, t, hret⟩ :=
    reader_returns hx (settled_alone (x.device.setWidth 7) d fun _ => 0#8) 6 0
  exact ⟨outputs t.mem 0, World.boot devs fun _ => 0#8, t, ms, 6, 0, quiet_boot _ _, hd,
    Or.inl (Nat.le_refl _), hret, rfl⟩

/-- A reader can always be run to its end, and the three outputs are then the values that
the six registers encode, whatever the memory and the interleaving, so they tell register
contents apart. -/
theorem readers_decode {x : Reader} (hx : x ∈ readers) (d : RegisterFile) :
    (∀ s : World RegisterFile,
      Settled (x.device.setWidth 7 = ·) (Present (x.device.setWidth 7 = ·)) s →
      ∀ rawData out, ∃ ms t,
        (machine RegisterFile).Returns ms (x.program rawData out) s () t) ∧
    (∃ v, Reads x d v) ∧
    (∀ v, Reads x d v →
      (∀ a b c, sixRegisters d x.register = x.encode a b c → v = (a, b, c)) ∧
      x.encode v.1 v.2.1 v.2.2 = sixRegisters d x.register) ∧
    ∀ d' v v', Reads x d v → Reads x d' v' →
      sixRegisters d x.register ≠ sixRegisters d' x.register → v ≠ v' := by
  refine ⟨fun s hs => reader_returns hx hs, exists_reads hx d,
    fun v hv => ⟨fun a b c h => ?_, encode_reads hx hv⟩, fun d' v v' hv hv' hne heq => ?_⟩
  · obtain ⟨h₁, h₂, h₃⟩ := encode_inj hx ((encode_reads hx hv).trans h)
    rw [← h₁, ← h₂, ← h₃]
  · apply hne
    rw [← encode_reads hx hv, ← encode_reads hx hv', heq]

theorem readers_decode_counting :
    ∃ v, Reads adxl345Reader countingFile v ∧ v = (0x3332#16, 0x3534#16, 0x3736#16) := by
  obtain ⟨-, ⟨v, hv⟩, hall, -⟩ := readers_decode (x := adxl345Reader) (List.mem_cons_self ..)
    countingFile
  exact ⟨v, hv, (hall v hv).1 _ _ _ (by decide)⟩

end ImuFirmware
