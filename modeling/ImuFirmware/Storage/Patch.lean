/-
A sequence written over at a position, which is what writing to an open file does to what
it holds.

Writing at the end appends, and two writes one behind the other are one write.
-/
import Mathlib.Data.List.GetD

namespace Storage

variable {β : Type} {l d d' : List β} {p n : Nat}

/-- `l` with `d` written over it from position `p` on. -/
def patched (l : List β) (p : Nat) (d : List β) : List β :=
  l.take p ++ d ++ l.drop (p + d.length)

theorem patched_nil (l : List β) (p : Nat) : patched l p [] = l := by
  show l.take p ++ [] ++ l.drop p = l
  rw [List.append_nil, List.take_append_drop]

theorem length_patched (h : p ≤ l.length) :
    (patched l p d).length = max l.length (p + d.length) := by
  simp only [patched, List.length_append, List.length_take, List.length_drop]
  omega

theorem getElem?_patched_of_lt (h : p ≤ l.length) (hn : n < p) : (patched l p d)[n]? = l[n]? := by
  rw [patched, List.append_assoc, List.getElem?_append_left (by rw [List.length_take]; omega),
    List.getElem?_take_of_lt hn]

theorem getElem?_patched_within (h : p ≤ l.length) (hlow : p ≤ n) (hhigh : n < p + d.length) :
    (patched l p d)[n]? = d[n - p]? := by
  have hlen : (l.take p).length = p := by
    rw [List.length_take]
    omega
  rw [patched, List.append_assoc, List.getElem?_append_right (by omega), hlen,
    List.getElem?_append_left (by omega)]

theorem getElem?_patched_of_ge (h : p ≤ l.length) (hn : p + d.length ≤ n) :
    (patched l p d)[n]? = l[n]? := by
  have hlen : (l.take p ++ d).length = p + d.length := by
    rw [List.length_append, List.length_take]
    omega
  rw [patched, List.getElem?_append_right (by omega), hlen, List.getElem?_drop]
  congr 1
  omega

/-- Two writes, the second where the first ended, are one. -/
theorem patched_patched (h : p ≤ l.length) :
    patched (patched l p d) (p + d.length) d' = patched l p (d ++ d') := by
  have hlen := length_patched (d := d) h
  have hfirst : p + d.length ≤ (patched l p d).length := by omega
  refine List.ext_getElem? fun n => ?_
  by_cases hn : n < p + d.length
  · rw [getElem?_patched_of_lt hfirst hn]
    by_cases hlow : n < p
    · rw [getElem?_patched_of_lt h hlow, getElem?_patched_of_lt h hlow]
    · rw [getElem?_patched_within h (by omega) hn, getElem?_patched_within h (by omega) (by
        rw [List.length_append]; omega), List.getElem?_append_left (by omega)]
  · by_cases hmid : n < p + d.length + d'.length
    · rw [getElem?_patched_within hfirst (by omega) hmid, getElem?_patched_within h (by omega) (by
        rw [List.length_append]; omega), List.getElem?_append_right (by omega)]
      congr 1
      omega
    · rw [getElem?_patched_of_ge hfirst (by omega), getElem?_patched_of_ge h (by omega),
        getElem?_patched_of_ge h (by rw [List.length_append]; omega)]

end Storage
