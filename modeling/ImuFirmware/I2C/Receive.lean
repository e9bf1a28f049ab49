/-
What the receiving half of the driver does, whenever the hardware moves.

The driver gets the bytes in order along every interleaving, since the two-deep
receive buffer keeps them so.  That no more bytes come in than it wants depends on
one thing, that the last byte completes with ACK clear.  The proposition `E` stands
for it: what rests on it is stated under `E`, and `E` is asked to be enough for it.
-/
import ImuFirmware.I2C.Transmit

namespace ImuFirmware

open Polling

variable {δ : Type}

/-! ## What a device sends -/

section

variable [Device δ]

/-- A device that has sent `n` bytes. -/
def advance (d : δ) : Nat → δ
  | 0 => d
  | n + 1 => (Device.get (advance d n)).2

/-- The byte a device sends after `n` others. -/
def stream (d : δ) (n : Nat) : Byte := (Device.get (advance d n)).1

def taken (d : δ) (n : Nat) : List Byte := (List.range n).map (stream d)

@[simp] theorem length_taken (d : δ) (n : Nat) : (taken d n).length = n := by
  simp [taken]

theorem taken_succ (d : δ) (n : Nat) : taken d (n + 1) = taken d n ++ [stream d n] := by
  simp [taken, List.range_succ]

theorem drop_taken {d : δ} {i n : Nat} (h : i < n) :
    (taken d n).drop i = stream d i :: (taken d n).drop (i + 1) := by
  rw [List.drop_eq_getElem_cons (by simpa using h)]
  simp [taken]

/-- What `count` bytes look like on the bus when only the last is refused. -/
def exactLog (d : δ) (count : Nat) : List (Byte × Bool) :=
  (taken d (count - 1)).map (·, true) ++ [(stream d (count - 1), false)]

end

/-- Memory `m` with the bytes `l` written from `buf` on. -/
def writeBytes (m : Nat → Byte) (buf : Nat) (l : List Byte) : Nat → Byte := fun p =>
  if buf ≤ p then (l[p - buf]?).getD (m p) else m p

theorem writeBytes_nil (m : Nat → Byte) (buf : Nat) : writeBytes m buf [] = m := by
  funext p
  simp [writeBytes]

theorem writeBytes_append (m : Nat → Byte) (buf : Nat) (l : List Byte) (b : Byte) :
    writeBytes m buf (l ++ [b]) = Function.update (writeBytes m buf l) (buf + l.length) b := by
  funext p
  by_cases hp : p = buf + l.length
  · subst hp
    simp [writeBytes]
  · rw [Function.update_of_ne hp]
    unfold writeBytes
    split
    case isFalse => rfl
    case isTrue hle =>
      by_cases hlt : p - buf < l.length
      · rw [List.getElem?_append_left hlt]
      · have hlen : (l ++ [b]).length ≤ p - buf := by
          rw [List.length_append, List.length_singleton]
          omega
        have hlen' : l.length ≤ p - buf := by omega
        rw [List.getElem?_eq_none hlen, List.getElem?_eq_none hlen']

/-! ## A burst in progress -/

/-- A burst read: the address, what the device there was when it began to send, the
devices and the bus log before it, and how many bytes are wanted. -/
structure Reception (δ : Type) where
  addr : BitVec 7
  dev : δ
  devs : BitVec 7 → Option δ
  clocked : List (Byte × Bool)
  count : Nat

variable [Device δ]

/-- `n` bytes have been clocked out and `popped` of them read from DR.  While the
device is still sending, all of them were acknowledged, and under `E` more are wanted. -/
structure Burst (E : Prop) (x : Reception δ) (popped n : Nat) (m : Nat → Byte)
    (s : World δ) : Prop where
  startReq : s.startReq = false
  devs : s.devs = Function.update x.devs x.addr (some (advance x.dev n))
  rx : s.rx = (taken x.dev n).drop popped
  mem : s.mem = m
  le_count : E → n ≤ x.count
  phase : (s.phase = .receiver x.addr ∧ (E → n < x.count) ∧
      s.clocked = x.clocked ++ (taken x.dev n).map (·, true)) ∨
    ((s.phase = .ended ∨ s.phase = .idle) ∧
      ∃ k y, n = k + 1 ∧ (E → n = x.count → y = false) ∧
        s.clocked = x.clocked ++ (taken x.dev k).map (·, true) ++ [(stream x.dev k, y)])

/-- At least `low` bytes have come in and `popped` were read. -/
def Bursting (E : Prop) (x : Reception δ) (low popped : Nat) (m : Nat → Byte)
    (s : World δ) : Prop :=
  s.addrFlag = false ∧ ∃ n, low ≤ n ∧ Burst E x popped n m s

/-- The last of `count` bytes completes with ACK clear, or it does so in a wait loop
that the driver cannot leave yet.  `n` bytes were on the bus before. -/
def Paced (n count : Nat) (G : Guard sig (World δ)) : Prop :=
  ∀ ctl s, G ctl s .machine → ∀ a, s.phase = .receiver a →
    (s.clocked.length + 1 = n + count → s.ack = false) ∨
      ∃ c, ctl = .waiting c ∧ s.exits c = false

variable {E : Prop} {x : Reception δ} {low popped n : Nat} {m : Nat → Byte} {s t : World δ}

theorem Burst.step (h : Burst E x popped n m s) (hpop : popped ≤ n)
    (hlast : E → s.phase = .receiver x.addr → n + 1 = x.count → s.ack = false)
    (ht : s.hwStep = some t) :
    t.addrFlag = s.addrFlag ∧ ∃ k, n ≤ k ∧ Burst E x popped k m t := by
  rcases h.phase with ⟨hp, hn, hc⟩ | ⟨hp, k, y, hk, hy, hc⟩
  · have hd : s.devs x.addr = some (advance x.dev n) := by
      rw [h.devs, Function.update_self]
    obtain ⟨-, rfl⟩ := World.hwStep_receiver_inv hp hd ht
    refine ⟨rfl, n + 1, Nat.le_succ n, h.startReq, ?_, ?_, h.mem, fun e => hn e, ?_⟩
    · simp only [h.devs, Function.update_idem]
      rfl
    · have hle : popped ≤ (taken x.dev n).length := by rwa [length_taken]
      simp only [h.rx, taken_succ, List.drop_append_of_le_length hle]
      rfl
    · by_cases hgo : (s.ack && !s.stopReq) = true
      · have hack : s.ack = true := (Bool.and_eq_true_iff.mp hgo).1
        refine Or.inl ⟨by simp only [hgo, if_true], ?_, ?_⟩
        · intro e
          have hlt := hn e
          have hne : n + 1 ≠ x.count := fun he => by
            rw [hlast e hp he] at hack
            exact Bool.noConfusion hack
          omega
        · simp only [hc, hack, taken_succ, List.map_append, List.append_assoc]
          rfl
      · refine Or.inr ⟨Or.inl (by simp only [hgo, if_false, Bool.false_eq_true]), n, s.ack,
          rfl, fun e => hlast e hp, ?_⟩
        simp only [hc]
        rfl
  · rcases hp with hp | hp
    · rw [(World.hwStep_still_inv (by rw [hp]; rfl) ht).2]
      exact ⟨rfl, n, Nat.le_refl n, h.startReq, h.devs, h.rx, h.mem, h.le_count,
        Or.inr ⟨Or.inr rfl, k, y, hk, hy, hc⟩⟩
    · exact absurd ht (World.hwStep_idle_ne hp h.startReq)

theorem Burst.length_clocked (h : Burst E x popped n m s) (hp : s.phase = .receiver x.addr) :
    s.clocked.length = x.clocked.length + n := by
  rcases h.phase with ⟨-, -, hc⟩ | ⟨hp' | hp', -⟩
  · simp [hc]
  · exact absurd (hp.symm.trans hp') nofun
  · exact absurd (hp.symm.trans hp') nofun

theorem Burst.rx_cons (h : Burst E x popped n m s) (hn : popped < n) :
    s.rx = stream x.dev popped :: (taken x.dev n).drop (popped + 1) := by
  rw [h.rx, drop_taken hn]

theorem Burst.lt_of_rx (h : Burst E x popped n m s) (hrx : s.rx ≠ []) : popped < n := by
  by_contra hle
  apply hrx
  rw [h.rx, List.drop_eq_nil_of_le]
  rw [length_taken]
  omega

theorem Bursting.poll {w : Wait} (h : Bursting E x low popped m s) :
    Bursting E x low popped m (s.poll w) := by
  cases w with
  | whileFlag flag => exact h
  | untilEvent event =>
      obtain ⟨-, n, hn, hb⟩ := h
      exact ⟨rfl, n, hn, hb.startReq, hb.devs, hb.rx, hb.mem, hb.le_count, hb.phase⟩

/-! ## The receiving functions -/

variable {G : Guard sig (World δ)} {D : BitVec 7 → Option δ} {c : List (Byte × Bool)}
  {P : Phase → Prop}

/-- `I2C_start` as receiver returns only once the device is addressed and may have
sent its first bytes. -/
theorem wp_i2cStart_receiver {device : Byte} {count : Nat} (hcount : 0 < count)
    (hG : E → Paced c.length count G) (hs : Quiet D m c s) :
    wp (machine δ) G anyWait
      (fun _ t => ∃ d, D (device.setWidth 7) = some d ∧
        Bursting E ⟨device.setWidth 7, Device.select true d, D, c, count⟩ 0 0 m t)
      (i2cStart (device <<< 1) i2cDirectionReceiver) s := by
  unfold i2cStart
  refine wp_startHead hs fun s₁ h₁ => ?_
  have hdir : ¬ i2cDirectionReceiver = i2cDirectionTransmitter := by decide
  rw [if_neg hdir, if_pos rfl]
  set b := addressByte (device <<< 1) i2cDirectionReceiver with hb
  have htarget : World.target b = device.setWidth 7 := World.target_addressByte device _
  have hbit : b.getLsbD 0 = true := World.addressByte_receiver _
  refine wp_await (fun t => Addressing b D m c t ∨ Dead t ∨
    ∃ d n, D (device.setWidth 7) = some d ∧ t.addrFlag = true ∧
      Burst E ⟨device.setWidth 7, Device.select true d, D, c, count⟩ 0 n m t)
    (Or.inl h₁) ?_ ?_ (fun _ _ => trivial) ?_
  · intro u v hcase hg hv
    rcases hcase with hu | hu | ⟨d, n, hd, hf, hu⟩
    · rcases hu.step hv with hv' | ⟨d, hd, rfl⟩
      · exact Or.inr (Or.inl hv')
      · rw [htarget] at hd
        refine Or.inr (Or.inr ⟨d, 0, hd, rfl, hu.1.startReq, ?_, hu.1.rx, hu.1.mem,
          fun _ => Nat.zero_le count, Or.inl ⟨?_, fun _ => hcount, ?_⟩⟩)
        · simp only [htarget, hbit]
          rfl
        · simp only [htarget, hbit, if_true]
        · simp only [hu.1.clocked, taken, List.range_zero, List.map_nil, List.append_nil]
    · exact Or.inr (Or.inl (hu.step hv))
    · have hlast : E → u.phase = .receiver (device.setWidth 7) → n + 1 = count →
          u.ack = false := by
        intro e hp hn
        rcases hG e _ u hg _ hp with hack | ⟨w, hw, he⟩
        · exact hack (by rw [hu.length_clocked hp]; simp only; omega)
        · obtain rfl : receiverWait = w := Ctl.waiting.inj hw
          have hexit := u.exits_receiverWait.mpr ⟨hf, by rw [hp]; exact nofun⟩
          rw [he] at hexit
          exact Bool.noConfusion hexit
      obtain ⟨hf', k, -, hk⟩ := hu.step (Nat.zero_le n) hlast hv
      exact Or.inr (Or.inr ⟨d, k, hd, hf'.trans hf, hk⟩)
  · intro u hcase he
    rcases hcase with hu | hu | ⟨d, n, hd, hf, hu⟩
    · exact Or.inl (hu.poll (w := receiverWait))
    · exact Or.inr (Or.inl (hu.poll (w := receiverWait)))
    · have hidle : u.phase = .idle := by
        by_contra hp
        have hexit := u.exits_receiverWait.mpr ⟨hf, hp⟩
        rw [show u.exits receiverWait = false from he] at hexit
        exact Bool.noConfusion hexit
      exact Or.inr (Or.inl ⟨hu.startReq, Or.inl hidle⟩)
  · intro u hcase he
    rcases hcase with hu | hu | ⟨d, n, hd, hf, hu⟩
    · exact absurd he (by simp [hu.exits (Or.inr rfl)])
    · exact absurd he (by simp [hu.exits (Or.inr (Or.inl rfl))])
    · exact ⟨d, hd, rfl, n, Nat.zero_le n, hu.startReq, hu.devs, hu.rx, hu.mem, hu.le_count,
        hu.phase⟩

/-- An access between two waits of a burst, with a fact about the state that the
hardware keeps. -/
theorem wp_burst_op {o : Op} {Q : o.Ret → World δ → Prop} {K : World δ → Prop}
    (hG : E → Paced x.clocked.length x.count G) (hpop : popped ≤ low)
    (hK : ∀ u v, K u → u.hwStep = some v → K v)
    (hs : Bursting E x low popped m s) (hKs : K s)
    (hk : ∀ t, Bursting E x low popped m t → K t → Q (t.access o).1 (t.access o).2) :
    wp (machine δ) G anyWait Q (Prog.op (S := sig) o) s := by
  refine wp_op (S := sig) (fun t => Bursting E x low popped m t ∧ K t) ⟨hs, hKs⟩ ?_
    (fun t ht _ => hk t ht.1 ht.2)
  intro u v hcase hg hv
  obtain ⟨hu, hKu⟩ := hcase
  refine ⟨?_, hK u v hKu hv⟩
  obtain ⟨hf, n, hn, hb⟩ := hu
  have hlast : E → u.phase = .receiver x.addr → n + 1 = x.count → u.ack = false := by
    intro e hp hcount
    have hack := (hG e _ u hg _ hp).resolve_right fun ⟨_, hw, _⟩ => nomatch hw
    exact hack (by rw [hb.length_clocked hp]; omega)
  obtain ⟨hf', k, hk, hb'⟩ := hb.step (by omega) hlast hv
  exact ⟨hf'.trans hf, k, Nat.le_trans hn hk, hb'⟩

/-- The wait for one more byte, either because it is not the last or because ACK is
clear. -/
theorem wp_burst_received (hG : E → Paced x.clocked.length x.count G)
    {K : World δ → Prop} (hK : ∀ u v, K u → u.hwStep = some v → K v)
    (hKpoll : ∀ u, K u → K (u.poll receivedWait))
    (hmore : popped + 1 = x.count → ∀ u, K u → u.ack = false)
    (hs : Bursting E x popped popped m s) (hKs : K s) :
    wp (machine δ) G anyWait (fun _ t => Bursting E x (popped + 1) popped m t ∧ K t)
      (untilEvent i2cEventMasterByteReceived) s := by
  refine wp_await (fun t => Bursting E x popped popped m t ∧ K t) ⟨hs, hKs⟩ ?_ ?_
    (fun _ _ => trivial) ?_
  · intro u v hcase hg hv
    obtain ⟨⟨hf, n, hn, hb⟩, hKu⟩ := hcase
    have hlast : E → u.phase = .receiver x.addr → n + 1 = x.count → u.ack = false := by
      intro e hp hcount
      rcases hG e _ u hg _ hp with hack | ⟨w, hw, he⟩
      · exact hack (by rw [hb.length_clocked hp]; omega)
      · obtain rfl : receivedWait = w := Ctl.waiting.inj hw
        have hrx : u.rx = [] := by
          by_contra hrx
          have hexit := u.exits_receivedWait.mpr ⟨hrx, by rw [hp]; exact nofun⟩
          rw [he] at hexit
          exact Bool.noConfusion hexit
        have hle : n ≤ popped := by
          by_contra hlt
          rw [hb.rx_cons (by omega)] at hrx
          exact nomatch hrx
        exact hmore (by omega) u hKu
    obtain ⟨hf', k, hk, hb'⟩ := hb.step hn hlast hv
    exact ⟨⟨hf'.trans hf, k, Nat.le_trans hn hk, hb'⟩, hK u v hKu hv⟩
  · exact fun u hu _ => ⟨hu.1.poll (w := receivedWait), hKpoll u hu.2⟩
  · intro u hcase he
    obtain ⟨⟨hf, n, hn, hb⟩, hKu⟩ := hcase
    have hlt := hb.lt_of_rx (u.exits_receivedWait.mp he).1
    have hu : Bursting E x (popped + 1) popped m u := ⟨hf, n, hlt, hb⟩
    exact ⟨hu.poll (w := receivedWait), hKpoll u hKu⟩

/-- Reading DR takes the oldest unread byte. -/
theorem Bursting.readDr (h : Bursting E x (popped + 1) popped m s) :
    (s.access .readDr).1 = stream x.dev popped ∧
      Bursting E x (popped + 1) (popped + 1) m (s.access .readDr).2 := by
  obtain ⟨hf, n, hn, hb⟩ := h
  have hrx := hb.rx_cons hn
  refine ⟨by simp only [World.access, hrx, List.headD_cons], hf, n, hn, hb.startReq, hb.devs,
    ?_, hb.mem, hb.le_count, hb.phase⟩
  simp only [World.access, hrx, List.tail_cons]

theorem wp_i2cReadAck (hG : E → Paced x.clocked.length x.count G) (hmore : popped + 1 < x.count)
    (hs : Bursting E x popped popped m s) :
    wp (machine δ) G anyWait
      (fun b t => b = stream x.dev popped ∧ Bursting E x (popped + 1) (popped + 1) m t)
      i2cReadAck s := by
  have hack : wp (machine δ) G anyWait (fun _ t => Bursting E x popped popped m t)
      (i2cAcknowledgeConfig true) s :=
    wp_burst_op hG (Nat.le_refl popped) (fun _ _ _ _ => trivial) hs trivial
      fun _ ⟨hf, n, hn, hb⟩ _ =>
        ⟨hf, n, hn, hb.startReq, hb.devs, hb.rx, hb.mem, hb.le_count, hb.phase⟩
  unfold i2cReadAck
  refine wp_seq hack fun _ s₁ h₁ => ?_
  refine wp_seq (wp_burst_received hG (K := fun _ => True) (fun _ _ _ _ => trivial)
    (fun _ _ => trivial) (fun h => by omega) h₁ trivial) fun _ s₂ h₂ => ?_
  exact wp_burst_op hG (Nat.le_succ popped) (fun _ _ _ _ => trivial) h₂.1 trivial
    fun t ht _ => ht.readDr

theorem wp_i2cReadNack (hG : E → Paced x.clocked.length x.count G)
    (hs : Bursting E x popped popped m s) :
    wp (machine δ) G anyWait
      (fun b t => b = stream x.dev popped ∧ Bursting E x (popped + 1) (popped + 1) m t)
      i2cReadNack s := by
  have hK : ∀ u v : World δ, u.ack = false → u.hwStep = some v → v.ack = false :=
    fun u v hu hv => (World.hwStep_ack hv).trans hu
  have hnack : wp (machine δ) G anyWait
      (fun _ t => Bursting E x popped popped m t ∧ t.ack = false)
      (i2cAcknowledgeConfig false) s :=
    wp_burst_op hG (Nat.le_refl popped) (fun _ _ _ _ => trivial) hs trivial
      fun _ ⟨hf, n, hn, hb⟩ _ =>
        ⟨⟨hf, n, hn, hb.startReq, hb.devs, hb.rx, hb.mem, hb.le_count, hb.phase⟩, rfl⟩
  unfold i2cReadNack
  refine wp_seq hnack fun _ s₁ ⟨h₁, hack₁⟩ => ?_
  have hstop : wp (machine δ) G anyWait
      (fun _ t => Bursting E x popped popped m t ∧ t.ack = false) i2cGenerateStop s₁ :=
    wp_burst_op hG (Nat.le_refl popped) hK h₁ hack₁ fun _ ⟨hf, n, hn, hb⟩ hack =>
      ⟨⟨hf, n, hn, hb.startReq, hb.devs, hb.rx, hb.mem, hb.le_count, hb.phase⟩, hack⟩
  refine wp_seq hstop fun _ s₂ ⟨h₂, hack₂⟩ => ?_
  refine wp_seq (wp_burst_received hG hK (fun _ hu => hu) (fun _ _ hu => hu) h₂ hack₂)
    fun _ s₃ ⟨h₃, _⟩ => ?_
  exact wp_burst_op hG (Nat.le_succ popped) (fun _ _ _ _ => trivial) h₃ trivial
    fun t ht _ => ht.readDr

theorem wp_burst_stop (hG : E → Paced x.clocked.length x.count G) (hpop : popped ≤ low)
    (hs : Bursting E x low popped m s) :
    wp (machine δ) G anyWait (fun _ t => Bursting E x low popped m t) i2cStop s :=
  wp_burst_op hG hpop (fun _ _ _ _ => trivial) hs trivial fun _ ⟨hf, n, hn, hb⟩ _ =>
    ⟨hf, n, hn, hb.startReq, hb.devs, hb.rx, hb.mem, hb.le_count, hb.phase⟩

/-! ## Whole reads -/

theorem readMultiLoop_more {buf count i : Nat} (h : i + 1 < count) :
    readMultiLoop buf count i = (do
      let b ← i2cReadAck
      store (buf + i) b
      readMultiLoop buf count (i + 1)) := by
  have hi : i < count := by omega
  have hmore : (i : Int) < (count : Int) - 1 := by omega
  rw [readMultiLoop, if_pos hi]
  simp only [if_pos hmore]

theorem readMultiLoop_done {buf count i : Nat} (h : count ≤ i) :
    readMultiLoop buf count i = pure () := by
  rw [readMultiLoop, if_neg (by omega)]

theorem readMultiLoop_last {buf count i : Nat} (h : i + 1 = count) :
    readMultiLoop buf count i = (do
      let b ← i2cReadNack
      store (buf + i) b
      i2cStop) := by
  have hi : i < count := by omega
  have hlast : ¬ (i : Int) < (count : Int) - 1 := by omega
  rw [readMultiLoop, if_pos hi]
  simp only [if_neg hlast, readMultiLoop_done (Nat.le_of_eq h.symm)]
  rfl

/-- The loop from index `i` on: the bytes before it are in the buffer. -/
theorem wp_readMultiLoop {buf i : Nat} (hG : E → Paced x.clocked.length x.count G)
    (hi : i < x.count) (hs : Bursting E x i i (writeBytes m buf (taken x.dev i)) s) :
    wp (machine δ) G anyWait
      (fun _ t => Bursting E x x.count x.count (writeBytes m buf (taken x.dev x.count)) t)
      (readMultiLoop buf x.count i) s := by
  have hmem : ∀ k, Function.update (writeBytes m buf (taken x.dev k)) (buf + k)
      (stream x.dev k) = writeBytes m buf (taken x.dev (k + 1)) := by
    intro k
    rw [taken_succ, writeBytes_append, length_taken]
  have hstore : ∀ k u, Bursting E x (k + 1) (k + 1) (writeBytes m buf (taken x.dev k)) u →
      wp (machine δ) G anyWait
        (fun _ t => Bursting E x (k + 1) (k + 1) (writeBytes m buf (taken x.dev (k + 1))) t)
        (store (buf + k) (stream x.dev k)) u := by
    intro k u hu
    refine wp_burst_op hG (Nat.le_refl _) (fun _ _ _ _ => trivial) hu trivial ?_
    intro t hcase _
    obtain ⟨hf, n, hn, hb⟩ := hcase
    refine ⟨hf, n, hn, hb.startReq, hb.devs, hb.rx, ?_, hb.le_count, hb.phase⟩
    rw [← hmem k, ← hb.mem]
    rfl
  induction hk : x.count - i generalizing i s with
  | zero => omega
  | succ k ih =>
      by_cases hlast : i + 1 = x.count
      · rw [readMultiLoop_last hlast]
        refine wp_seq (wp_i2cReadNack hG hs) fun b s₁ ⟨hb, h₁⟩ => ?_
        obtain rfl := hb
        refine wp_seq (hstore i s₁ h₁) fun _ s₂ h₂ => ?_
        rw [hlast] at h₂
        exact wp_burst_stop hG (Nat.le_refl _) h₂
      · rw [readMultiLoop_more (by omega)]
        refine wp_seq (wp_i2cReadAck hG (by omega) hs) fun b s₁ ⟨hb, h₁⟩ => ?_
        obtain rfl := hb
        exact wp_seq (hstore i s₁ h₁) fun _ s₂ h₂ => ih (by omega) h₂ (by omega)

/-- Where the last byte is known to come with ACK clear, a burst that was read out
left nothing behind. -/
theorem Bursting.quiet (e : E) (h : Bursting E x x.count x.count m s) :
    Quiet (Function.update x.devs x.addr (some (advance x.dev x.count))) m
      (x.clocked ++ exactLog x.dev x.count) s := by
  obtain ⟨hf, n, hn, hb⟩ := h
  obtain rfl : n = x.count := Nat.le_antisymm (hb.le_count e) hn
  have hrx : s.rx = [] := by
    rw [hb.rx, List.drop_eq_nil_of_le]
    rw [length_taken]
  rcases hb.phase with ⟨-, hlt, -⟩ | ⟨hp, k, y, hk, hy, hc⟩
  · exact absurd (hlt e) (Nat.lt_irrefl _)
  · refine ⟨⟨hb.startReq, hf, hrx, hb.devs, hb.mem, ?_⟩, ?_⟩
    · have hk' : x.count - 1 = k := by omega
      rw [hc, hy e rfl, exactLog, hk', List.append_assoc]
    · rcases hp with hp | hp
      · exact Or.inr ⟨by rw [hp]; rfl, trivial⟩
      · exact Or.inl hp

/-- The device once it was told which register to read. -/
def pointed (register : Byte) (d : δ) : Option δ :=
  (Device.put register (Device.select false d)).map (Device.select true)

/-- The write transfer that precedes every read. -/
theorem wp_pointer {α : Type} {Q : α → World δ → Prop} {device register : Byte}
    {k : Driver α} (hs : Quiet D m c s)
    (hk : ∀ d d' t, D (device.setWidth 7) = some d →
      Device.put register (Device.select false d) = some d' →
      Quiet (Function.update D (device.setWidth 7) (some d')) m c t →
      wp (machine δ) G anyWait Q k t) :
    wp (machine δ) G anyWait Q (do
      i2cStart (device <<< 1) i2cDirectionTransmitter
      i2cWrite register
      i2cStop
      k) s := by
  refine wp_seq (wp_i2cStart_transmitter hs) fun _ s₁ ⟨d, hd, h₁⟩ => ?_
  refine wp_seq (wp_i2cWrite h₁) fun _ s₂ ⟨e, e', he, he', h₂⟩ => ?_
  rw [Function.update_self] at he
  obtain rfl := Option.some.inj he
  rw [Function.update_idem] at h₂
  exact wp_seq (wp_i2cStop h₂) fun _ s₃ h₃ => hk d e' s₃ hd he' h₃

/-- The burst of `count` bytes from the device in the state `d`. -/
def reception (D : BitVec 7 → Option δ) (c : List (Byte × Bool)) (device : Byte) (d : δ)
    (count : Nat) : Reception δ :=
  ⟨device.setWidth 7, d, Function.update D (device.setWidth 7) (some d), c, count⟩

theorem wp_burst_start {α : Type} {Q : α → World δ → Prop} {device register : Byte}
    {count : Nat} {k : Driver α} (hcount : 0 < count) (hG : E → Paced c.length count G)
    (hs : Quiet D m c s)
    (hk : ∀ d d' t, D (device.setWidth 7) = some d → pointed register d = some d' →
      Bursting E (reception D c device d' count) 0 0 m t → wp (machine δ) G anyWait Q k t) :
    wp (machine δ) G anyWait Q (do
      i2cStart (device <<< 1) i2cDirectionTransmitter
      i2cWrite register
      i2cStop
      i2cStart (device <<< 1) i2cDirectionReceiver
      k) s := by
  refine wp_pointer hs fun d e s₁ hd he h₁ => ?_
  refine wp_seq (wp_i2cStart_receiver hcount hG h₁) fun _ s₂ ⟨e', he', hf, n, hn, hb⟩ => ?_
  rw [Function.update_self] at he'
  obtain rfl := Option.some.inj he'
  refine hk d (Device.select true e) s₂ hd (by rw [pointed, he, Option.map_some])
    ⟨hf, n, hn, hb.startReq, ?_, hb.rx, hb.mem, hb.le_count, hb.phase⟩
  rw [hb.devs]
  simp only [reception, Function.update_idem]

theorem wp_i2cReadReg {device register : Byte} (hG : Paced c.length 1 G)
    (hs : Quiet D m c s) :
    wp (machine δ) G anyWait
      (fun b t => ∃ d d', D (device.setWidth 7) = some d ∧ pointed register d = some d' ∧
        b = stream d' 0 ∧
        Quiet (Function.update D (device.setWidth 7) (some (advance d' 1))) m
          (c ++ exactLog d' 1) t)
      (i2cReadReg device register) s := by
  have hG' : True → Paced c.length 1 G := fun _ => hG
  unfold i2cReadReg
  refine wp_burst_start Nat.one_pos hG' hs fun d d' s₁ hd hd' h₁ => ?_
  refine wp_seq (wp_i2cReadNack hG' h₁) fun b s₂ ⟨hb, h₂⟩ => ?_
  refine wp_seq (wp_burst_stop hG' (Nat.le_refl _) h₂) fun _ s₃ h₃ => ?_
  refine ⟨d, d', hd, hd', hb, ?_⟩
  have hq : Quiet _ m _ s₃ := h₃.quiet (x := reception D c device d' 1) trivial
  simpa only [reception, Function.update_idem] using hq

/-- Along every interleaving the bytes end up in the buffer. -/
theorem wp_i2cReadMultiReg_buffer {device register count : Byte} {buf : Nat}
    (hcount : 0 < count.toNat) (hG : E → Paced c.length count.toNat G) (hs : Quiet D m c s) :
    wp (machine δ) G anyWait
      (fun _ t => ∃ d d', D (device.setWidth 7) = some d ∧ pointed register d = some d' ∧
        Bursting E (reception D c device d' count.toNat) count.toNat count.toNat
          (writeBytes m buf (taken d' count.toNat)) t)
      (i2cReadMultiReg device register buf count) s := by
  unfold i2cReadMultiReg
  refine wp_burst_start hcount hG hs fun d d' s₁ hd hd' h₁ => ?_
  rw [← writeBytes_nil m buf] at h₁
  exact wp_mono (fun _ t ht => ⟨d, d', hd, hd', ht⟩)
    (wp_readMultiLoop (x := reception D c device d' count.toNat) hG hcount h₁)

theorem wp_i2cReadMultiReg {device register count : Byte} {buf : Nat}
    (hcount : 0 < count.toNat) (hG : Paced c.length count.toNat G) (hs : Quiet D m c s) :
    wp (machine δ) G anyWait
      (fun _ t => ∃ d d', D (device.setWidth 7) = some d ∧ pointed register d = some d' ∧
        Quiet (Function.update D (device.setWidth 7) (some (advance d' count.toNat)))
          (writeBytes m buf (taken d' count.toNat)) (c ++ exactLog d' count.toNat) t)
      (i2cReadMultiReg device register buf count) s := by
  refine wp_mono (fun _ t ⟨d, d', hd, hd', ht⟩ => ⟨d, d', hd, hd', ?_⟩)
    (wp_i2cReadMultiReg_buffer (E := True) hcount (fun _ => hG) hs)
  have hq := ht.quiet (x := reception D c device d' count.toNat) trivial
  simpa only [Quiet, reception, Function.update_idem] using hq

end ImuFirmware
