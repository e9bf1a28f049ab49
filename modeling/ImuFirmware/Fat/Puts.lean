/-
`f_puts`: characters go through a buffer of 64 bytes to `f_write`, a line feed as a carriage
return and a line feed.

What has gone to the file and what is still in the buffer is always the converted text so
far, so a call that returns the number of characters has written all of it.
-/
import ImuFirmware.Fat.Content

namespace ImuFirmware
namespace Fat

open Storage

/-- The `putbuff` of `f_puts`: the first `idx` bytes of `buf`, or none where `idx` is -1. -/
structure PutBuff where
  buf : Option (List UInt8)
  nchr : Nat

/-- `putc_bfd` for a character that is stored as it is. -/
def putByte (g : Geometry) (v : Volume) (f : File) (pb : PutBuff) (c : UInt8) :
    Volume × File × PutBuff :=
  match pb.buf with
  | none => (v, f, pb)
  | some b =>
      if 64 - 3 ≤ (b ++ [c]).length then
        match fWrite g v f (b ++ [c]) with
        | (_, bw, v, f) =>
            (v, f, ⟨if bw = (b ++ [c]).length then some [] else none, pb.nchr + 1⟩)
      else (v, f, ⟨some (b ++ [c]), pb.nchr + 1⟩)

/-- `putc_bfd`. -/
def putcBfd (g : Geometry) (v : Volume) (f : File) (pb : PutBuff) (c : UInt8) :
    Volume × File × PutBuff :=
  if c = 10 then
    match putByte g v f pb 13 with
    | (v, f, pb) => putByte g v f pb c
  else putByte g v f pb c

def putsLoop (g : Geometry) (v : Volume) (f : File) (pb : PutBuff) :
    List UInt8 → Volume × File × PutBuff
  | [] => (v, f, pb)
  | c :: str =>
      match putcBfd g v f pb c with
      | (v, f, pb) => putsLoop g v f pb str

/-- The end of `f_puts` and `f_putc`: what is in the buffer goes to the file.  No number is
`EOF`. -/
def flushPuts (g : Geometry) (v : Volume) (f : File) (pb : PutBuff) :
    Option Nat × Volume × File :=
  match pb.buf with
  | none => (none, v, f)
  | some b =>
      match fWrite g v f b with
      | (res, nw, v, f) => (if res = .ok ∧ b.length = nw then some pb.nchr else none, v, f)

/-- `f_puts`, of the characters before the terminating one. -/
def fPuts (g : Geometry) (v : Volume) (f : File) (str : List UInt8) : Option Nat × Volume × File :=
  match putsLoop g v f ⟨some [], 0⟩ str with
  | (v, f, pb) => flushPuts g v f pb

/-- `f_putc`. -/
def fPutc (g : Geometry) (v : Volume) (f : File) (c : UInt8) : Option Nat × Volume × File :=
  match putcBfd g v f ⟨some [], 0⟩ c with
  | (v, f, pb) => flushPuts g v f pb

/-- What a character is in the file. -/
def crlf (c : UInt8) : List UInt8 := if c = 10 then [13, 10] else [c]

variable {ι : Type} {g : Geometry} {i : ι} {v v' : Volume} {chains chains' : ι → List Nat}
  {f f' : File} {pb : PutBuff} {s : List UInt8}

theorem length_crlf (str : List UInt8) :
    (str.flatMap crlf).length = str.length + str.count 10 := by
  induction str with
  | nil => rfl
  | cons c str ih =>
      rw [List.flatMap_cons, List.length_append, ih, List.length_cons]
      by_cases hc : c = 10
      · subst hc
        rw [List.count_cons_self]
        show 2 + _ = _
        omega
      · rw [List.count_cons_of_ne hc, crlf, if_neg hc]
        show 1 + _ = _
        omega

/-- Why not everything was written: no space in the volume or below 4 GiB, a damaged table,
or a failed transfer. -/
def Short (g : Geometry) (v : Volume) (f : File) (len : Nat) (v' : Volume) : Prop :=
  2 ^ 32 ≤ f.fptr + len ∨ (∀ c, g.links v' c ≠ .free) ∨ (v.disk.Reliable → Damaged g v)

/-- The converted text `s` is in the file up to what is in the buffer, or writing has ended
before. -/
inductive Putting (g : Geometry) (i : ι) (v : Volume) (chains : ι → List Nat) (f : File)
    (s : List UInt8) : Volume × File × PutBuff → Prop
  | going {w b : List UInt8} {v' : Volume} {chains' : ι → List Nat} {f' : File} (hs : s = w ++ b)
      (hb : b.length < 61) (hput : Put g i v chains f w v' chains' f') :
      Putting g i v chains f s (v', f', ⟨some b, s.length⟩)
  | ended {k : Nat} {v' : Volume} {chains' : ι → List Nat} {f' : File}
      (htried : Tried g i v chains f v' chains' f') (hwhy : Short g v f s.length v') :
      Putting g i v chains f s (v', f', ⟨none, k⟩)

theorem Short.more {len len' : Nat} (h : Short g v f len v') (hle : len ≤ len') :
    Short g v f len' v' := by
  obtain h | h := h
  · exact Or.inl (by omega)
  · exact Or.inr h

/-- A write behind what was put already falls short for the same reasons. -/
theorem Answered.short [DecidableEq ι] {w b : List UInt8} {res : FResult} {n : Nat}
    {v'' : Volume} {f'' : File} (hput : Put g i v chains f w v' chains' f')
    (h : Answered g i v' chains' f' b (res, n, v'', f'')) (hn : n ≠ b.length ∨ res ≠ .ok) :
    ∃ chains'', Tried g i v chains f v'' chains'' f'' ∧ Short g v f (w ++ b).length v'' := by
  cases h with
  | put hle hput' hchanged hwhy =>
      refine ⟨_, hput.toTried.trans hput'.toTried, ?_⟩
      have hne : n ≠ b.length := hn.resolve_right fun h => h rfl
      obtain h | h | h := hwhy
      · exact absurd h hne
      · refine Or.inl ?_
        rw [hput.pointer] at h
        rw [List.length_append]
        omega
      · exact Or.inr (Or.inl h)
  | failed hres hlt htried herr hwhy =>
      exact ⟨_, hput.toTried.trans htried, Or.inr (Or.inr fun hr =>
        hput.moved.intact (hwhy (hr.after hput.moved.after)))⟩

/-- One more byte. -/
theorem putByte_putting [DecidableEq ι] (hwhole : Whole g v) (hu : Usable g v f (chains i))
    (hopen : Writable f) (h : Putting g i v chains f s (v', f', pb)) (c : UInt8) :
    Putting g i v chains f (s ++ [c]) (putByte g v' f' pb c) := by
  cases h with
  | @ended k _ chains' _ htried hwhy =>
      exact .ended htried (hwhy.more (by simp))
  | @going w b _ chains' _ hs hb hput =>
      have htext : s ++ [c] = w ++ (b ++ [c]) := by rw [hs, List.append_assoc]
      have hlen : (s ++ [c]).length = s.length + 1 := by simp
      by_cases hfull : 64 - 3 ≤ (b ++ [c]).length
      swap
      · simp only [putByte, if_neg hfull]
        rw [← hlen]
        exact .going htext (by omega) hput
      simp only [putByte, if_pos hfull]
      have hshort : (b ++ [c]).length < 2 ^ 32 := by
        rw [List.length_append]
        show b.length + 1 < _
        omega
      have hans := fWrite_answered hput.moved.sound (hwhole.after hput.moved.after) hput.usable
        (hopen.of_same hput.toTried hput.fine) hshort
      rcases hw : fWrite g v' f' (b ++ [c]) with ⟨res, bw, v'', f''⟩
      rw [hw] at hans
      by_cases hall : bw = (b ++ [c]).length
      · simp only [if_pos hall]
        cases hans with
        | put hn hput' hchanged hwhy =>
            rw [hall, List.take_length] at hput'
            have hboth := Put.trans hu hopen.fine hput hput'
            rw [← htext] at hboth
            rw [← hlen]
            exact .going (List.append_nil _).symm (by simp) hboth
        | failed hres hlt => exact absurd hall (by omega)
      · simp only [if_neg hall]
        obtain ⟨chains'', htried, hshort⟩ := hans.short hput (Or.inl hall)
        rw [← htext] at hshort
        exact .ended htried hshort

theorem putcBfd_putting [DecidableEq ι] (hwhole : Whole g v) (hu : Usable g v f (chains i))
    (hopen : Writable f) (h : Putting g i v chains f s (v', f', pb)) (c : UInt8) :
    Putting g i v chains f (s ++ crlf c) (putcBfd g v' f' pb c) := by
  unfold putcBfd crlf
  split
  · next hc =>
      have hcr := putByte_putting hwhole hu hopen h 13
      rcases hbyte : putByte g v' f' pb 13 with ⟨v₁, f₁, pb₁⟩
      rw [hbyte] at hcr
      have hlf := putByte_putting hwhole hu hopen hcr c
      rw [List.append_assoc] at hlf
      subst hc
      exact hlf
  · exact putByte_putting hwhole hu hopen h c

theorem putsLoop_putting [DecidableEq ι] (hwhole : Whole g v) (hu : Usable g v f (chains i))
    (hopen : Writable f) (str : List UInt8) (h : Putting g i v chains f s (v', f', pb)) :
    Putting g i v chains f (s ++ str.flatMap crlf) (putsLoop g v' f' pb str) := by
  induction str generalizing s v' f' pb with
  | nil =>
      rw [List.flatMap_nil, List.append_nil]
      exact h
  | cons c str ih =>
      have hc := putcBfd_putting hwhole hu hopen h c
      rw [putsLoop, List.flatMap_cons, ← List.append_assoc]
      rcases hstep : putcBfd g v' f' pb c with ⟨v₁, f₁, pb₁⟩
      rw [hstep] at hc
      exact ih hc

/-- What `f_puts` and `f_putc` come to. -/
inductive Puts (g : Geometry) (i : ι) (v : Volume) (chains : ι → List Nat) (f : File)
    (s : List UInt8) : Option Nat × Volume × File → Prop
  | wrote {v' : Volume} {chains' : ι → List Nat} {f' : File}
      (hput : Put g i v chains f s v' chains' f') (hchanged : f'.changed = true) :
      Puts g i v chains f s (some s.length, v', f')
  | eof {v' : Volume} {chains' : ι → List Nat} {f' : File}
      (htried : Tried g i v chains f v' chains' f') (hwhy : Short g v f s.length v') :
      Puts g i v chains f s (none, v', f')

theorem flushPuts_puts [DecidableEq ι] (hwhole : Whole g v) (hu : Usable g v f (chains i))
    (hopen : Writable f) (h : Putting g i v chains f s (v', f', pb)) :
    Puts g i v chains f s (flushPuts g v' f' pb) := by
  cases h with
  | ended htried hwhy => exact .eof htried hwhy
  | @going w b _ chains' _ hs hb hput =>
      have hans := fWrite_answered hput.moved.sound (hwhole.after hput.moved.after) hput.usable
        (hopen.of_same hput.toTried hput.fine) (show b.length < 2 ^ 32 by omega)
      rcases hw : fWrite g v' f' b with ⟨res, nw, v'', f''⟩
      rw [hw] at hans
      by_cases hall : res = .ok ∧ b.length = nw
      · simp only [flushPuts, hw, if_pos hall]
        obtain ⟨rfl, hlen⟩ := hall
        cases hans with
        | put hn hput' hchanged hwhy =>
            rw [← hlen, List.take_length] at hput'
            have hboth := Put.trans hu hopen.fine hput hput'
            rw [← hs] at hboth
            exact .wrote hboth hchanged
        | failed hres => exact absurd rfl hres
      · simp only [flushPuts, hw, if_neg hall]
        have hn : nw ≠ b.length ∨ res ≠ .ok := by
          by_cases hres : res = .ok
          · exact Or.inl fun he => hall ⟨hres, he.symm⟩
          · exact Or.inr hres
        obtain ⟨chains'', htried, hshort⟩ := hans.short hput hn
        rw [← hs] at hshort
        exact .eof htried hshort

theorem fPuts_puts [DecidableEq ι] (hs : Sound g v chains) (hwhole : Whole g v)
    (hu : Usable g v f (chains i)) (hopen : Writable f) (str : List UInt8) :
    Puts g i v chains f (str.flatMap crlf) (fPuts g v f str) := by
  have hstart : Putting g i v chains f [] (v, f, ⟨some [], 0⟩) :=
    .going rfl (by simp) (Put.refl hs hu hopen.fine)
  have hloop := putsLoop_putting hwhole hu hopen str hstart
  rw [List.nil_append] at hloop
  unfold fPuts
  rcases hrun : putsLoop g v f ⟨some [], 0⟩ str with ⟨v', f', pb⟩
  rw [hrun] at hloop
  exact flushPuts_puts hwhole hu hopen hloop

theorem fPutc_eq (g : Geometry) (v : Volume) (f : File) (c : UInt8) :
    fPutc g v f c = fPuts g v f [c] := rfl

/-- `f_puts` answers the number of bytes the text takes with a carriage return before each
line feed, and has patched all of them into the file; `EOF` means that there was no room,
or that a transfer failed or the table is damaged. -/
theorem fPuts_converts [DecidableEq ι] (hs : Sound g v chains) (hwhole : Whole g v)
    (hu : Usable g v f (chains i)) (hopen : Writable f) (str : List UInt8) :
    ∃ nchr v' chains' f', fPuts g v f str = (nchr, v', f') ∧
      Sound g v' chains' ∧ Usable g v' f' (chains' i) ∧
      (∀ j, j ≠ i → chains' j = chains j ∧
        ∀ s, g.Owns (chains j) s → v'.disk.data s = v.disk.data s) ∧
      (∀ n, nchr = some n → n = str.length + str.count 10 ∧ f'.fptr = f.fptr + n ∧
        f'.content g v' (chains' i) =
          patched (f.content g v (chains i)) f.fptr (str.flatMap crlf)) ∧
      (nchr = none → Short g v f (str.length + str.count 10) v') := by
  have h := fPuts_puts hs hwhole hu hopen str
  rw [← length_crlf]
  rcases hrun : fPuts g v f str with ⟨nchr, v', f'⟩
  rw [hrun] at h
  cases h with
  | @wrote _ chains' _ hput hchanged =>
      have hm := hput.moved
      refine ⟨_, _, chains', _, rfl, hm.sound, hput.usable, hm.rest hs, ?_, ?_⟩
      · rintro n ⟨⟩
        exact ⟨rfl, hput.pointer, hput.content⟩
      · intro hnone
        cases hnone
  | @eof _ chains' _ htried hwhy =>
      have hm := htried.moved
      refine ⟨_, _, chains', _, rfl, hm.sound, htried.usable, hm.rest hs, ?_, fun _ => hwhy⟩
      rintro n ⟨⟩

/-- A line of text in a new file. -/
theorem fPuts_on_blank :
    (∃ v' f', ∃ chains' : Unit → List Nat,
      fPuts stick (mounted blank) (.fresh 84 0 1) [72, 105, 10] = (some 4, v', f') ∧
        f'.content stick v' (chains' ()) = [72, 105, 13, 10]) ∧
      ∃ v' f', ∃ chains' : Unit → List Nat,
        fPuts stick (mounted (faulty 0)) (.fresh 84 0 1) [72, 105, 10] = (none, v', f') ∧
          Usable stick v' f' (chains' ()) := by
  have hwhole : ∀ v, Whole stick v := fun v => whole_of_small fun h => by cases h
  constructor
  · have hres : (fPuts stick (mounted blank) (.fresh 84 0 1) [72, 105, 10]).1 = some 4 := by
      decide +kernel
    obtain ⟨nchr, v', chains', f', hrun, -, -, -, hsome, -⟩ :=
      fPuts_converts (i := ()) (mounted_sound (.empty _)) (hwhole (mounted blank))
        (fresh_usable 84 0 1) (fresh_writable 84 0 1) [72, 105, 10]
    rw [hrun] at hres
    cases hres
    exact ⟨v', f', chains', hrun, (hsome 4 rfl).2.2⟩
  · have hres : (fPuts stick (mounted (faulty 0)) (.fresh 84 0 1) [72, 105, 10]).1 = none := by
      decide +kernel
    obtain ⟨nchr, v', chains', f', hrun, -, hu, -⟩ :=
      fPuts_converts (i := ()) (mounted_sound (.empty _)) (hwhole (mounted (faulty 0)))
        (fresh_usable 84 0 1) (fresh_writable 84 0 1) [72, 105, 10]
    rw [hrun] at hres
    cases hres
    exact ⟨v', f', chains', hrun, hu⟩

end Fat
end ImuFirmware
