/-
The file allocation table as bytes.

`FsType.entry` reads an entry off the bytes of a table, for the three packings: twelve
bits across a pair of bytes shared with a neighbour, a word, or 28 bits of a double word.
Writing an entry leaves the others alone, and the masks and shifts of `get_fat` and
`put_fat` are these quotients and remainders.
-/
import ImuFirmware.Fat.Volume

namespace ImuFirmware
namespace Fat

/-! ## Masks and shifts -/

theorem and_one_ne_zero_iff (n : Nat) : n &&& 1 ≠ 0 ↔ n % 2 = 1 := by
  have h : n &&& 1 = n % 2 ^ 1 := Nat.and_two_pow_sub_one_eq_mod n 1
  omega

theorem lowNibble_or (a n : Nat) :
    ((a &&& 0x0F) ||| (n % 256) <<< 4) % 256 = a % 16 + n % 16 * 16 := by
  have hlow : a &&& 0x0F = a % 2 ^ 4 := Nat.and_two_pow_sub_one_eq_mod a 4
  rw [hlow, Nat.or_comm, ← Nat.shiftLeft_add_eq_or_of_lt (by omega), Nat.shiftLeft_eq]
  omega

theorem and_highNibble {a : Nat} (ha : a < 256) : a &&& 0xF0 = a / 16 * 16 := by
  have hmask : ∀ x : Fin 256, x.val &&& 0xF0 = x.val / 16 * 16 := by decide +kernel
  exact hmask ⟨a, ha⟩

theorem highNibble_or {a : Nat} (ha : a < 256) (n : Nat) :
    ((a &&& 0xF0) ||| (n % 256 &&& 0x0F)) = a / 16 * 16 + n % 16 := by
  have hlow : n % 256 &&& 0x0F = n % 256 % 2 ^ 4 := Nat.and_two_pow_sub_one_eq_mod _ 4
  have hhigh : a / 16 * 16 = (a / 16) <<< 4 := (Nat.shiftLeft_eq (a / 16) 4).symm
  rw [and_highNibble ha, hlow, hhigh, ← Nat.shiftLeft_add_eq_or_of_lt (by omega)]
  omega

theorem byteAt_lt (s : Sector) (i : Nat) : byteAt s i < 256 := UInt8.toNat_lt _

theorem or_shift8 {a : Nat} (ha : a < 256) (b : Nat) : a ||| b <<< 8 = b * 256 + a := by
  rw [Nat.or_comm, ← Nat.shiftLeft_add_eq_or_of_lt ha, Nat.shiftLeft_eq]

theorem ldWord_eq (s : Sector) (i : Nat) :
    ldWord s i = byteAt s (i + 1) * 256 + byteAt s i := by
  rw [ldWord, Nat.or_comm, or_shift8 (byteAt_lt s i)]

theorem ldDword_eq (s : Sector) (i : Nat) :
    ldDword s i = byteAt s (i + 3) * 2 ^ 24 + byteAt s (i + 2) * 2 ^ 16 +
      byteAt s (i + 1) * 2 ^ 8 + byteAt s i := by
  have h0 := byteAt_lt s i
  have h1 := byteAt_lt s (i + 1)
  have h2 := byteAt_lt s (i + 2)
  have hlow : byteAt s (i + 1) <<< 8 ||| byteAt s i = byteAt s (i + 1) * 256 + byteAt s i :=
    ldWord_eq s i
  rw [ldDword, Nat.or_assoc, Nat.or_assoc, hlow,
    ← Nat.shiftLeft_add_eq_or_of_lt (show _ < 2 ^ 16 by omega), Nat.shiftLeft_eq (byteAt s (i + 2)),
    ← Nat.shiftLeft_add_eq_or_of_lt (show _ < 2 ^ 24 by omega), Nat.shiftLeft_eq]
  omega

/-- The four bits that a FAT32 entry keeps are in its last byte. -/
theorem or_kept_shift (val : Nat) (s : Sector) (i : Nat) :
    (val ||| (ldDword s i &&& 0xF0000000)) >>> 24 =
      val / 2 ^ 24 ||| byteAt s (i + 3) / 16 * 16 := by
  have h0 := byteAt_lt s i
  have h1 := byteAt_lt s (i + 1)
  have h2 := byteAt_lt s (i + 2)
  have hhigh : ldDword s i >>> 24 = byteAt s (i + 3) := by
    rw [ldDword_eq, Nat.shiftRight_eq_div_pow]
    omega
  have hmask : 0xF0000000 >>> 24 = 0xF0 := rfl
  rw [Nat.shiftRight_or_distrib, Nat.shiftRight_and_distrib, hhigh, hmask,
    and_highNibble (byteAt_lt s (i + 3)), Nat.shiftRight_eq_div_pow]

theorem or_kept_mod (val : Nat) (s : Sector) (i : Nat) {k : Nat} (hk : k ≤ 16) :
    (val ||| (ldDword s i &&& 0xF0000000)) >>> k % 2 ^ 8 = val >>> k % 2 ^ 8 := by
  have hmask : 0xF0000000 >>> k % 2 ^ 8 = 0 := by
    have : ∀ j : Fin 17, 0xF0000000 >>> j.val % 2 ^ 8 = 0 := by decide
    exact this ⟨k, by omega⟩
  rw [Nat.shiftRight_or_distrib, Nat.shiftRight_and_distrib, Nat.or_mod_two_pow,
    Nat.and_mod_two_pow, hmask, Nat.and_zero, Nat.or_zero]

/-! ## Entries -/

namespace FsType

/-- An entry holds the numbers below it. -/
def modulus : FsType → Nat
  | .fat12 => 2 ^ 12
  | .fat16 => 2 ^ 16
  | .fat32 => 2 ^ 28

/-- The first byte of an entry. -/
def start : FsType → Nat → Nat
  | .fat12, c => c + c / 2
  | .fat16, c => c * 2
  | .fat32, c => c * 4

/-- The bytes an entry reaches into. -/
def width : FsType → Nat
  | .fat12 | .fat16 => 2
  | .fat32 => 4

def entry (t : FsType) (b : Nat → UInt8) (c : Nat) : Nat :=
  let i := t.start c
  match t with
  | .fat12 =>
      if c % 2 = 1 then (b (i + 1)).toNat * 16 + (b i).toNat / 16
      else (b (i + 1)).toNat % 16 * 256 + (b i).toNat
  | .fat16 => (b (i + 1)).toNat * 256 + (b i).toNat
  | .fat32 =>
      ((b (i + 3)).toNat * 2 ^ 24 + (b (i + 2)).toNat * 2 ^ 16 + (b (i + 1)).toNat * 2 ^ 8 +
        (b i).toNat) % 2 ^ 28

/-- The first byte after an entry was written. -/
def first12 (b : Nat → UInt8) (c val : Nat) : Nat :=
  if c % 2 = 1 then (b (c + c / 2)).toNat % 16 + val % 16 * 16 else val % 256

/-- The second byte after an entry was written. -/
def second12 (b : Nat → UInt8) (c val : Nat) : Nat :=
  if c % 2 = 1 then val / 16 else (b (c + c / 2 + 1)).toNat / 16 * 16 + val / 256 % 16

/-- The bytes after the first half of a write, for FAT12, where the halves may lie in two
sectors. -/
def half (b : Nat → UInt8) (c val : Nat) : Nat → UInt8 :=
  Function.update b (c + c / 2) (UInt8.ofNat (first12 b c val))

/-- The bytes after an entry was written, the high four bits of a FAT32 entry kept. -/
def store (t : FsType) (b : Nat → UInt8) (c val : Nat) : Nat → UInt8 :=
  let i := t.start c
  match t with
  | .fat12 => Function.update (half b c val) (i + 1) (UInt8.ofNat (second12 b c val))
  | .fat16 =>
      Function.update (Function.update b i (UInt8.ofNat val)) (i + 1) (UInt8.ofNat (val / 2 ^ 8))
  | .fat32 =>
      Function.update (Function.update (Function.update (Function.update b
        i (UInt8.ofNat val)) (i + 1) (UInt8.ofNat (val / 2 ^ 8)))
        (i + 2) (UInt8.ofNat (val / 2 ^ 16)))
        (i + 3) (UInt8.ofNat (val / 2 ^ 24 ||| (b (i + 3)).toNat / 16 * 16))

variable {t : FsType} {b b' : Nat → UInt8} {c c' val : Nat}

theorem entry_lt (t : FsType) (b : Nat → UInt8) (c : Nat) : t.entry b c < t.modulus := by
  have h0 := (b (t.start c)).toNat_lt
  have h1 := (b (t.start c + 1)).toNat_lt
  cases t with
  | fat12 =>
      simp only [entry, modulus]
      split <;> omega
  | fat16 => simp only [entry, modulus]; omega
  | fat32 => simp only [entry, modulus]; omega

theorem entry_congr (h : ∀ j, t.start c ≤ j → j < t.start c + t.width → b j = b' j) :
    t.entry b c = t.entry b' c := by
  have h0 := h (t.start c) (by omega) (by cases t <;> simp only [width] <;> omega)
  have h1 := h (t.start c + 1) (by omega) (by cases t <;> simp only [width] <;> omega)
  cases t with
  | fat12 => simp only [entry, h0, h1]
  | fat16 => simp only [entry, h0, h1]
  | fat32 =>
      have h2 := h (start .fat32 c + 2) (by omega) (by simp only [width]; omega)
      have h3 := h (start .fat32 c + 3) (by omega) (by simp only [width]; omega)
      simp only [entry, h0, h1, h2, h3]

theorem toNat_byte (n : Nat) : (UInt8.ofNat n).toNat = n % 256 := UInt8.toNat_ofNat'

theorem entry_store_self : t.entry (t.store b c val) c = val % t.modulus := by
  cases t with
  | fat12 =>
      have h0 := (b (c + c / 2)).toNat_lt
      have h1 := (b (c + c / 2 + 1)).toNat_lt
      simp only [entry, store, half, first12, second12, start, modulus, Function.update_self,
        Function.update_of_ne (show c + c / 2 ≠ c + c / 2 + 1 by omega), toNat_byte]
      split <;> omega
  | fat16 =>
      simp only [entry, store, start, modulus, Function.update_self,
        Function.update_of_ne (show c * 2 ≠ c * 2 + 1 by omega), toNat_byte]
      omega
  | fat32 =>
      have hnibble : (val / 2 ^ 24 ||| (b (c * 4 + 3)).toNat / 16 * 16) % 16 =
          val / 2 ^ 24 % 16 := by
        show _ % 2 ^ 4 = _ % 2 ^ 4
        rw [Nat.or_mod_two_pow, Nat.mul_mod_left, Nat.or_zero]
      simp only [entry, store, start, modulus, Function.update_self,
        Function.update_of_ne (show c * 4 ≠ c * 4 + 1 by omega),
        Function.update_of_ne (show c * 4 ≠ c * 4 + 2 by omega),
        Function.update_of_ne (show c * 4 ≠ c * 4 + 3 by omega),
        Function.update_of_ne (show c * 4 + 1 ≠ c * 4 + 2 by omega),
        Function.update_of_ne (show c * 4 + 1 ≠ c * 4 + 3 by omega),
        Function.update_of_ne (show c * 4 + 2 ≠ c * 4 + 3 by omega), toNat_byte]
      omega

/-- Two entries of twelve bits start at different bytes, and one starts on the second
byte of the other only if it is the odd one of a pair. -/
theorem start12_cases (h : c' ≠ c) :
    c' + c' / 2 ≠ c + c / 2 ∧
      (c' + c' / 2 = c + c / 2 + 1 → c % 2 = 0 ∧ c' % 2 = 1) ∧
      (c' + c' / 2 + 1 = c + c / 2 → c % 2 = 1 ∧ c' % 2 = 0) := by
  omega

/-- The half write changes no entry but its own. -/
theorem entry_half_of_ne (h : c' ≠ c) :
    entry .fat12 (half b c val) c' = entry .fat12 b c' := by
  obtain ⟨hstart, -, hbefore⟩ := start12_cases h
  have h0 := (b (c + c / 2)).toNat_lt
  simp only [entry, start, half, Function.update_of_ne hstart]
  by_cases hpair : c' + c' / 2 + 1 = c + c / 2
  · obtain ⟨hodd, heven⟩ := hbefore hpair
    rw [hpair, Function.update_self, toNat_byte, first12, if_pos hodd, if_neg (by omega),
      if_neg (by omega)]
    omega
  · rw [Function.update_of_ne hpair]

theorem entry_store_of_ne (h : c' ≠ c) : t.entry (t.store b c val) c' = t.entry b c' := by
  cases t with
  | fat12 =>
      have hhalf : entry .fat12 (half b c val) c' = entry .fat12 b c' := entry_half_of_ne h
      rw [← hhalf]
      obtain ⟨hstart, hafter, -⟩ := start12_cases h
      have h1 := (b (c + c / 2 + 1)).toNat_lt
      simp only [entry, start, store]
      rw [Function.update_of_ne (show c' + c' / 2 + 1 ≠ c + c / 2 + 1 by omega)]
      by_cases hpair : c' + c' / 2 = c + c / 2 + 1
      · obtain ⟨heven, hodd⟩ := hafter hpair
        have hkept : half b c val (c + c / 2 + 1) = b (c + c / 2 + 1) :=
          Function.update_of_ne (by omega) ..
        rw [hpair, Function.update_self, toNat_byte, hkept, second12, if_pos hodd, if_pos hodd,
          if_neg (by omega)]
        omega
      · rw [Function.update_of_ne hpair]
  | fat16 =>
      refine entry_congr fun j hj hj' => ?_
      simp only [start, width] at hj hj'
      simp only [store, start]
      rw [Function.update_of_ne (by omega), Function.update_of_ne (by omega)]
  | fat32 =>
      refine entry_congr fun j hj hj' => ?_
      simp only [start, width] at hj hj'
      simp only [store, start]
      rw [Function.update_of_ne (by omega), Function.update_of_ne (by omega),
        Function.update_of_ne (by omega), Function.update_of_ne (by omega)]

end FsType

end Fat
end ImuFirmware
