/-
Cluster chains: `create_chain` and `remove_chain`.

`Geometry.links` reads the table as links.  Allocation takes a free cluster and links it
behind the one it is given; removal frees a chain from its first cluster on.  Both keep
the chains of any number of owners apart, over any run, and removal ends even on a table
that links in a circle.
-/
import ImuFirmware.Fat.Entry
import ImuFirmware.Storage.Links
import Mathlib.Order.Interval.Finset.Nat

namespace ImuFirmware
namespace Fat

open Storage

/-! ## Allocation -/

/-- `++ncl`, wrapped around at the end of the table. -/
def Geometry.after (g : Geometry) (ncl : Nat) : Nat :=
  if g.nFatent ≤ ncl + 1 then 2 else ncl + 1

/-- The search of `create_chain` from the cluster after `ncl` on, for a free one: its
number, or what the function returns without one. -/
def searchFree (g : Geometry) (scl : Nat) (hscl : scl < g.nFatent) (ncl : Nat) (v : Volume) :
    Except Nat Nat × Volume :=
  if _hfull : g.nFatent ≤ ncl + 1 ∧ 2 > scl then (.error 0, v)
  else
    match getFat g v (g.after ncl) with
    | (cs, v) =>
        if cs = 0 then (.ok (g.after ncl), v)
        else if cs = diskError ∨ cs = 1 then (.error cs, v)
        else if _hround : g.after ncl = scl then (.error 0, v)
        else searchFree g scl hscl (g.after ncl) v
  termination_by if scl ≤ ncl then g.nFatent - ncl + scl else scl - ncl
  decreasing_by
    unfold Geometry.after at *
    split_ifs at * <;> omega

/-- The update of the FSINFO data for a cluster that was taken. -/
def Volume.noteTaken (v : Volume) (ncl : Nat) : Volume :=
  if v.freeClust ≠ 0xFFFFFFFF then
    { v with lastClust := ncl, freeClust := dwordSub v.freeClust 1, fsiFlag := v.fsiFlag ||| 1 }
  else { v with lastClust := ncl }

/-- The end of `create_chain`, with the free cluster that the search found. -/
def claim (g : Geometry) (v : Volume) (clst ncl : Nat) : Nat × Volume :=
  match putFat g v ncl 0x0FFFFFFF with
  | (res, v) =>
      match (if res = .ok ∧ clst ≠ 0 then putFat g v clst ncl else (res, v)) with
      | (.ok, v) => (ncl, v.noteTaken ncl)
      | (res, v) => (if res = .diskErr then diskError else 1, v)

def allocate (g : Geometry) (v : Volume) (clst scl : Nat) (hscl : scl < g.nFatent) :
    Nat × Volume :=
  match searchFree g scl hscl scl v with
  | (.ok ncl, v) => claim g v clst ncl
  | (.error code, v) => (code, v)

/-- 0 when the volume is full, 1 for an internal error, `diskError`, or the cluster. -/
def createChain (g : Geometry) (v : Volume) (clst : Nat) : Nat × Volume :=
  if clst = 0 then
    if h : v.lastClust ≠ 0 ∧ v.lastClust < g.nFatent then allocate g v 0 v.lastClust h.2
    else allocate g v 0 1 (by have := g.someCluster; omega)
  else
    match getFat g v clst with
    | (cs, v) =>
        -- `get_fat` answers 1 for a number that is no cluster's
        if h : cs < 2 ∨ g.nFatent ≤ clst then (1, v)
        else if cs = diskError then (cs, v)
        else if cs < g.nFatent then (cs, v)
        else allocate g v clst clst (by omega)

/-! ## The table as links -/

namespace Geometry

variable (g : Geometry)

/-- What an entry says. -/
def link (e : Nat) : Link Nat :=
  if e = 0 then .free else if e = 1 then .bad else if e < g.nFatent then .next e else .last

def links (v : Volume) (c : Nat) : Link Nat :=
  if g.IsCluster c then g.link (g.entries v c) else .bad

variable {g} {v v' : Volume} {c n : Nat}

theorem maxEntries_lt (t : FsType) : t.maxEntries < t.modulus := by
  cases t <;> decide

theorem IsCluster.mod (h : g.IsCluster c) : c % g.fsType.modulus = c := by
  have := h.2
  have := g.entriesLe
  have := maxEntries_lt g.fsType
  exact Nat.mod_eq_of_lt (by omega)

theorem links_of_cluster (hc : g.IsCluster c) : g.links v c = g.link (g.entries v c) := if_pos hc

theorem isCluster_of_links (h : g.links v c ≠ .bad) : g.IsCluster c := by
  by_contra hc
  exact h (if_neg hc)

theorem link_eq_free_iff {e : Nat} : g.link e = .free ↔ e = 0 := by
  unfold link
  split_ifs with h <;> simp [h]

theorem link_eq_next_iff {e : Nat} : g.link e = .next n ↔ g.IsCluster n ∧ e = n := by
  unfold link IsCluster
  split_ifs with h0 h1 hlt
  · exact ⟨fun h => (by cases h), fun h => by omega⟩
  · exact ⟨fun h => (by cases h), fun h => by omega⟩
  · exact ⟨fun h => (by cases h; omega), fun h => by rw [h.2]⟩
  · exact ⟨fun h => (by cases h), fun h => by omega⟩

theorem link_eq_last_iff {e : Nat} : g.link e = .last ↔ g.nFatent ≤ e := by
  have hsome := g.someCluster
  unfold link
  split_ifs with h0 h1 hlt
  · exact ⟨fun h => (by cases h), fun h => by omega⟩
  · exact ⟨fun h => (by cases h), fun h => by omega⟩
  · exact ⟨fun h => (by cases h), fun h => by omega⟩
  · exact ⟨fun _ => by omega, fun _ => rfl⟩

theorem links_eq_free_iff : g.links v c = .free ↔ g.IsCluster c ∧ g.entries v c = 0 := by
  by_cases hc : g.IsCluster c
  · rw [links_of_cluster hc, link_eq_free_iff, and_iff_right hc]
  · simp [links, hc]

theorem links_eq_next_iff :
    g.links v c = .next n ↔ g.IsCluster c ∧ g.IsCluster n ∧ g.entries v c = n := by
  by_cases hc : g.IsCluster c
  · rw [links_of_cluster hc, link_eq_next_iff, and_iff_right hc]
  · simp [links, hc]

theorem links_eq_last_iff :
    g.links v c = .last ↔ g.IsCluster c ∧ g.nFatent ≤ g.entries v c := by
  by_cases hc : g.IsCluster c
  · rw [links_of_cluster hc, link_eq_last_iff, and_iff_right hc]
  · simp [links, hc]

/-- The mark of `create_chain` is a last link in every table. -/
theorem link_mark : g.link (0x0FFFFFFF % g.fsType.modulus) = .last := by
  have hle := g.entriesLe
  have hmark : g.fsType.maxEntries ≤ 0x0FFFFFFF % g.fsType.modulus := by
    cases g.fsType <;> decide
  exact link_eq_last_iff.mpr (Nat.le_trans hle hmark)

theorem IsCluster.link (h : g.IsCluster n) : g.link (n % g.fsType.modulus) = .next n := by
  rw [h.mod]
  exact link_eq_next_iff.mpr ⟨h, rfl⟩

theorem link_zero : g.link (0 % g.fsType.modulus) = .free := by
  rw [Nat.zero_mod]
  exact link_eq_free_iff.mpr rfl

end Geometry

variable {g : Geometry} {v v' : Volume} {c n val : Nat}

theorem links_of_view (h : ∀ b, g.home b → v'.view b = v.view b) : g.links v' = g.links v := by
  funext c
  unfold Geometry.links
  split
  · next hc => rw [Geometry.entries_congr hc fun i hi => Geometry.bytes_of_view h hi]
  · rfl

theorem Shown.links (h : Shown g v v') : g.links v' = g.links v := links_of_view h.view

/-- A table whose writes take effect as a whole: its entries do not straddle, or no
transfer fails. -/
def Whole (g : Geometry) (v : Volume) : Prop :=
  (∃ c, g.IsCluster c ∧ g.Straddles c) → v.disk.Reliable

theorem Whole.after (h : Whole g v) (hd : v.disk.After v'.disk) : Whole g v' := fun hs =>
  (h hs).after hd

/-- A table of twelve-bit entries in a single sector, or one of whole bytes. -/
theorem whole_of_small (h : g.fsType = .fat12 → g.nFatent ≤ 341) : Whole g v := by
  rintro ⟨c, hc, htype, hlast⟩
  have := h htype
  have := hc.2
  omega

theorem floppy_whole (v : Volume) : Whole floppy v := whole_of_small fun _ => by decide

/-- `put_fat` on the links. -/
theorem putFat_links (hv : g.Coherent v) (hc : g.IsCluster c) (val : Nat) :
    let out := putFat g v c val
    Kept g v out.2 ∧ out.2.hints = v.hints ∧
      ((out.1 = .ok ∧ g.links out.2 =
          Function.update (g.links v) c (g.link (val % g.fsType.modulus))) ∨
        (out.1 = .diskErr ∧ ¬v.disk.Reliable ∧ (∀ a, a ≠ c → g.links out.2 a = g.links v a) ∧
          (Whole g v → g.links out.2 = g.links v))) := by
  intro out
  obtain ⟨hk, hh, hother, hown⟩ := putFat_entries hv hc val
  have hne : ∀ a, a ≠ c → g.links out.2 a = g.links v a := by
    intro a ha
    unfold Geometry.links
    split
    · next hcl => rw [hother a hcl ha]
    · rfl
  refine ⟨hk, hh, ?_⟩
  obtain ⟨hok, hval⟩ | ⟨herr, hbad, hval⟩ := hown
  · refine Or.inl ⟨hok, funext fun a => ?_⟩
    by_cases ha : a = c
    · subst ha
      rw [Function.update_self, Geometry.links_of_cluster hc, hval]
    · rw [Function.update_of_ne ha, hne a ha]
  · refine Or.inr ⟨herr, hbad, hne, fun hw => funext fun a => ?_⟩
    by_cases ha : a = c
    · subst ha
      have hstraddle : ¬g.Straddles a := fun hs => hbad (hw ⟨a, hc, hs⟩)
      rw [Geometry.links_of_cluster hc, Geometry.links_of_cluster hc, hval hstraddle]
    · exact hne a ha

/-- Half of an entry that lies across two sectors: marking a free cluster has linked it. -/
example : (putFat wide (mounted (faulty 2)) 341 0x0FFFFFFF).1 = .diskErr ∧
    wide.links (putFat wide (mounted (faulty 2)) 341 0x0FFFFFFF).2 341 = .next 15 := by
  decide +kernel

/-! ## The search -/

/-- The clusters that the search has still to look at. -/
def Ahead (scl ncl c : Nat) : Prop := if scl ≤ ncl then ncl < c ∨ c ≤ scl else ncl < c ∧ c ≤ scl

/-- What the search says about the table it read. -/
def SearchOutcome (g : Geometry) (scl ncl : Nat) (v : Volume) : Except Nat Nat → Prop
  | .ok n => g.links v n = .free
  | .error code =>
      (code = 0 ∧ ∀ c, g.IsCluster c → Ahead scl ncl c → g.links v c ≠ .free) ∨
        (code = 1 ∧ ∃ c, g.IsCluster c ∧ g.links v c = .bad) ∨
        (code = diskError ∧ ¬v.disk.Reliable)

theorem isCluster_after (g : Geometry) (ncl : Nat) (h : 1 ≤ ncl) : g.IsCluster (g.after ncl) := by
  have := g.someCluster
  unfold Geometry.IsCluster Geometry.after
  split <;> omega

theorem entries_lt (g : Geometry) (v : Volume) (c : Nat) : g.entries v c < diskError := by
  have h := FsType.entry_lt g.fsType (g.bytes v) c
  have hmod : g.fsType.modulus ≤ 2 ^ 28 := by cases g.fsType <;> decide
  have : g.entries v c < 2 ^ 28 := Nat.lt_of_lt_of_le h hmod
  exact Nat.lt_trans this (by decide)

/-- What is ahead is the next cluster and what is ahead of that. -/
theorem ahead_cases {scl ncl : Nat} (hscl : scl < g.nFatent) (hc : g.IsCluster c)
    (h : Ahead scl ncl c) :
    c = g.after ncl ∨ (g.after ncl ≠ scl ∧ Ahead scl (g.after ncl) c) := by
  obtain ⟨hlow, hhigh⟩ := hc
  unfold Ahead Geometry.after at *
  split_ifs at * <;> omega

theorem getFat_eq {cs : Nat} (hv : g.Coherent v) (hc : g.IsCluster c)
    (h : getFat g v c = (cs, v')) :
    Shown g v v' ∧ (cs = g.entries v c ∨ (cs = diskError ∧ ¬v.disk.Reliable)) := by
  obtain ⟨w, hw, he | ⟨hbad, he⟩⟩ := getFat_cases hv hc
  · cases he.symm.trans h
    exact ⟨hw, Or.inl rfl⟩
  · cases he.symm.trans h
    exact ⟨hw, Or.inr ⟨rfl, hbad⟩⟩

theorem searchFree_outcome {scl : Nat} (hscl : scl < g.nFatent) {ncl : Nat} (hncl : 1 ≤ ncl)
    (hv : g.Coherent v) :
    Shown g v (searchFree g scl hscl ncl v).2 ∧
      SearchOutcome g scl ncl v (searchFree g scl hscl ncl v).1 := by
  induction ncl, v using searchFree.induct g scl hscl with
  | case1 ncl v hfull =>
      rw [searchFree, dif_pos hfull]
      refine ⟨Shown.refl hv, Or.inl ⟨rfl, fun c hc hahead => ?_⟩⟩
      have := hc.1
      have := hc.2
      unfold Ahead at hahead
      split at hahead <;> omega
  | case2 ncl v hfull v' hget =>
      have hcl := isCluster_after g ncl hncl
      obtain ⟨hs, h | h⟩ := getFat_eq hv hcl hget
      · rw [searchFree]
        simp only [dif_neg hfull, hget, if_true]
        exact ⟨hs, Geometry.links_eq_free_iff.mpr ⟨hcl, h.symm⟩⟩
      · cases h.1
  | case3 ncl v hfull cs v' hget hcs herr =>
      have hcl := isCluster_after g ncl hncl
      obtain ⟨hs, h⟩ := getFat_eq hv hcl hget
      rw [searchFree]
      simp only [dif_neg hfull, hget, if_neg hcs, if_pos herr]
      refine ⟨hs, Or.inr ?_⟩
      obtain h | h := h
      · have hlt := entries_lt g v (g.after ncl)
        obtain rfl | rfl := herr
        · omega
        · refine Or.inl ⟨rfl, g.after ncl, hcl, ?_⟩
          rw [Geometry.links_of_cluster hcl, ← h]
          rfl
      · exact Or.inr h
  | case4 ncl v hfull cs v' hget hcs herr hround =>
      have hcl := isCluster_after g ncl hncl
      obtain ⟨hs, h⟩ := getFat_eq hv hcl hget
      rw [searchFree]
      simp only [dif_neg hfull, hget, if_neg hcs, if_neg herr, dif_pos hround]
      refine ⟨hs, Or.inl ⟨rfl, fun c hc hahead hfree => ?_⟩⟩
      obtain rfl | ⟨hne, -⟩ := ahead_cases hscl hc hahead
      · have hzero := (Geometry.links_eq_free_iff.mp hfree).2
        obtain h | h := h
        · exact hcs (h.trans hzero)
        · exact herr (Or.inl h.1)
      · exact hne hround
  | case5 ncl v hfull cs v' hget hcs herr hround ih =>
      have hcl := isCluster_after g ncl hncl
      obtain ⟨hs, h⟩ := getFat_eq hv hcl hget
      obtain ⟨hs', hout⟩ := ih (by have := hcl.1; omega) hs.coherent
      rw [searchFree]
      simp only [dif_neg hfull, hget, if_neg hcs, if_neg herr, dif_neg hround]
      refine ⟨hs.trans hs', ?_⟩
      cases hres : (searchFree g scl hscl (g.after ncl) v').1 with
      | ok n =>
          rw [hres] at hout
          show g.links v n = .free
          rw [← hs.links]
          exact hout
      | error code =>
          rw [hres] at hout
          obtain ⟨h0, hall⟩ | ⟨h1, b, hb, hbad⟩ | ⟨he, hbad⟩ := hout
          · refine Or.inl ⟨h0, fun c hc hahead hfree => ?_⟩
            obtain rfl | ⟨-, hlater⟩ := ahead_cases hscl hc hahead
            · have hzero := (Geometry.links_eq_free_iff.mp hfree).2
              obtain h | h := h
              · exact hcs (h.trans hzero)
              · exact herr (Or.inl h.1)
            · rw [← hs.links] at hfree
              exact hall c hc hlater hfree
          · rw [hs.links] at hbad
            exact Or.inr (Or.inl ⟨h1, b, hb, hbad⟩)
          · exact Or.inr (Or.inr ⟨he, fun hr => hbad (hr.after hs.after)⟩)

/-! ## What allocation comes to -/

/-- The links after `n` was taken, behind `clst` if that is a cluster. -/
def taken (t : Nat → Link Nat) (clst n : Nat) : Nat → Link Nat :=
  if clst = 0 then Function.update t n .last
  else Function.update (Function.update t n .last) clst (.next n)

/-- What a failed allocation may leave behind: nothing, or a cluster marked and not
linked, or part of a straddling entry. -/
structure Abandoned (g : Geometry) (v v' : Volume) (clst : Nat) : Prop where
  unreliable : ¬v.disk.Reliable
  hints : v'.hints = v.hints
  marked : ∃ n, g.links v n = .free ∧
    (∀ a, a ≠ n → a ≠ clst → g.links v' a = g.links v a) ∧
    (Whole g v → g.links v' = g.links v ∨ g.links v' = Function.update (g.links v) n .last)

theorem noteTaken_toWindow (v : Volume) (n : Nat) : (v.noteTaken n).toWindow = v.toWindow := by
  unfold Volume.noteTaken
  split <;> rfl

/-- The hints are no part of the table. -/
theorem kept_of_window (hk : Kept g v v') {w : Volume} (hw : w.toWindow = v'.toWindow) :
    Kept g v w where
  coherent := by
    unfold Geometry.Coherent
    rw [hw]
    exact hk.coherent
  after := by
    rw [hw]
    exact hk.after
  placed := by
    rw [hw]
    exact hk.placed
  offTable s hs hst := by
    rw [hw]
    exact hk.offTable s hs hst
  mirrored hr hm := by
    unfold Geometry.Mirrored
    rw [hw]
    exact hk.mirrored hr hm

theorem links_of_window {w : Volume} (hw : w.toWindow = v.toWindow) :
    g.links w = g.links v := by
  unfold Geometry.links Geometry.entries Geometry.bytes
  rw [hw]

theorem claim_cases (hv : g.Coherent v) {clst : Nat} (hn : g.links v n = .free)
    (hc : clst = 0 ∨ g.IsCluster clst) :
    (∃ v', Kept g v v' ∧ v'.hints = v.hints ∧ g.links v' = taken (g.links v) clst n ∧
        claim g v clst n = (n, v'.noteTaken n)) ∨
      (∃ v', Kept g v v' ∧ Abandoned g v v' clst ∧ claim g v clst n = (diskError, v')) := by
  have hncl := (Geometry.links_eq_free_iff.mp hn).1
  have hput := putFat_links hv hncl 0x0FFFFFFF
  rw [Geometry.link_mark] at hput
  unfold claim
  rcases hres : putFat g v n 0x0FFFFFFF with ⟨res, v₁⟩
  rw [hres] at hput
  obtain ⟨hk₁, hh₁, ⟨rfl, hl₁⟩ | ⟨rfl, hbad, hother₁, hwhole₁⟩⟩ := hput
  · by_cases hzero : clst = 0
    · refine Or.inl ⟨v₁, hk₁, hh₁, ?_, ?_⟩
      · rw [taken, if_pos hzero]
        exact hl₁
      · simp [hzero]
    · have hclst := hc.resolve_left hzero
      have hput₂ := putFat_links hk₁.coherent hclst n
      rw [Geometry.IsCluster.link hncl] at hput₂
      rcases hres₂ : putFat g v₁ clst n with ⟨res₂, v₂⟩
      rw [hres₂] at hput₂
      obtain ⟨hk₂, hh₂, ⟨rfl, hl₂⟩ | ⟨rfl, hbad, hother₂, hwhole₂⟩⟩ := hput₂
      · refine Or.inl ⟨v₂, hk₁.trans hk₂, hh₂.trans hh₁, ?_, by simp [hzero, hres₂]⟩
        rw [taken, if_neg hzero, ← hl₁]
        exact hl₂
      · refine Or.inr ⟨v₂, hk₁.trans hk₂, ⟨fun hr => hbad (hr.after hk₁.after), hh₂.trans hh₁,
          n, hn, fun a ha ha' => ?_, fun hw => Or.inr ?_⟩, by simp [hzero, hres₂]⟩
        · exact (hother₂ a ha').trans ((congrFun hl₁ a).trans (Function.update_of_ne ha ..))
        · exact (hwhole₂ (hw.after hk₁.after)).trans hl₁
  · refine Or.inr ⟨v₁, hk₁, ⟨hbad, hh₁, n, hn, fun a ha _ => hother₁ a ha,
      fun hw => Or.inl (hwhole₁ hw)⟩, ?_⟩
    simp

/-- What `create_chain` comes to. -/
inductive Created (g : Geometry) (v : Volume) (clst : Nat) : Nat × Volume → Prop
  /-- A free cluster was taken. -/
  | took {n : Nat} {v' : Volume} (hfree : g.links v n = .free) (hkept : Kept g v v')
      (hhints : v'.hints = v.hints) (hlinks : g.links v' = taken (g.links v) clst n)
      (hend : clst = 0 ∨ g.links v clst = .last) : Created g v clst (n, v'.noteTaken n)
  /-- The chain goes on already. -/
  | followed {n : Nat} {v' : Volume} (hnext : g.links v clst = .next n) (hshown : Shown g v v') :
      Created g v clst (n, v')
  /-- There is no free cluster. -/
  | full {v' : Volume} (hshown : Shown g v v') (hused : ∀ c, g.links v c ≠ .free)
      (hend : clst = 0 ∨ g.links v clst = .last) : Created g v clst (0, v')
  /-- The table holds an entry that is none, or `clst` is the last of no chain. -/
  | inconsistent {v' : Volume} (hshown : Shown g v v')
      (hwhy : (∃ c, g.IsCluster c ∧ g.links v c = .bad) ∨
        (clst ≠ 0 ∧ (g.links v clst = .free ∨ g.links v clst = .bad))) : Created g v clst (1, v')
  /-- A transfer failed. -/
  | failed {v' : Volume} (hkept : Kept g v v') (hout : Abandoned g v v' clst) :
      Created g v clst (diskError, v')
  /-- A transfer failed before anything was written. -/
  | unread {v' : Volume} (hshown : Shown g v v') (hbad : ¬v.disk.Reliable) :
      Created g v clst (diskError, v')

theorem Created.kept {clst : Nat} {out : Nat × Volume} (h : Created g v clst out) :
    Kept g v out.2 := by
  cases h with
  | took hfree hkept hhints hlinks hend => exact kept_of_window hkept (noteTaken_toWindow _ _)
  | followed hnext hshown => exact hshown.toKept
  | full hshown hused => exact hshown.toKept
  | inconsistent hshown => exact hshown.toKept
  | failed hkept hout => exact hkept
  | unread hshown hbad => exact hshown.toKept

theorem created_of_shown (hs : Shown g v v') {clst : Nat} {out : Nat × Volume}
    (h : Created g v' clst out) : Created g v clst out := by
  have hlinks := hs.links
  cases h with
  | took hfree hkept hhints hl hend =>
      rw [hlinks] at hfree hl hend
      exact .took hfree (hs.toKept.trans hkept) (hhints.trans hs.hints) hl hend
  | followed hnext hshown => exact .followed (hlinks ▸ hnext) (hs.trans hshown)
  | full hshown hused hend => exact .full (hs.trans hshown) (hlinks ▸ hused) (hlinks ▸ hend)
  | inconsistent hshown hwhy => exact .inconsistent (hs.trans hshown) (hlinks ▸ hwhy)
  | failed hkept hout =>
      obtain ⟨n, hfree, hother, hwhole⟩ := hout.marked
      rw [hlinks] at hfree hother hwhole
      exact .failed (hs.toKept.trans hkept) ⟨fun hr => hout.unreliable (hr.after hs.after),
        hout.hints.trans hs.hints, n, hfree, hother, fun hw => hwhole (hw.after hs.after)⟩
  | unread hshown hbad => exact .unread (hs.trans hshown) fun hr => hbad (hr.after hs.after)

theorem allocate_created (hv : g.Coherent v) {clst scl : Nat} (hscl : scl < g.nFatent)
    (hstart : 1 ≤ scl) (hend : clst = 0 ∨ g.links v clst = .last) :
    Created g v clst (allocate g v clst scl hscl) := by
  have hsearch := searchFree_outcome hscl hstart hv
  unfold allocate
  rcases hres : searchFree g scl hscl scl v with ⟨res, v₁⟩
  rw [hres] at hsearch
  obtain ⟨hs, hout⟩ := hsearch
  cases res with
  | ok n =>
      rw [← hs.links] at hend
      have hfree : g.links v₁ n = .free := by
        rw [hs.links]
        exact hout
      have hclst : clst = 0 ∨ g.IsCluster clst :=
        hend.imp_right fun h => (Geometry.links_eq_last_iff.mp h).1
      refine created_of_shown hs ?_
      obtain ⟨v', hk, hh, hl, he⟩ | ⟨v', hk, ha, he⟩ := claim_cases hs.coherent hfree hclst
      · simp only [he]
        exact .took hfree hk hh hl hend
      · simp only [he]
        exact .failed hk ha
  | error code =>
      obtain ⟨hzero, hall⟩ | ⟨hone, hwhy⟩ | ⟨herr, hbad⟩ := hout
      · subst hzero
        refine .full hs (fun c hfree => ?_) hend
        refine hall c (Geometry.links_eq_free_iff.mp hfree).1 ?_ hfree
        unfold Ahead
        rw [if_pos (Nat.le_refl _)]
        omega
      · subst hone
        exact .inconsistent hs (Or.inl hwhy)
      · rw [herr]
        exact .unread hs hbad

theorem createChain_created (hv : g.Coherent v) (clst : Nat) :
    Created g v clst (createChain g v clst) := by
  unfold createChain
  by_cases hzero : clst = 0
  · rw [if_pos hzero]
    subst hzero
    split
    · exact allocate_created hv _ (by omega) (Or.inl rfl)
    · exact allocate_created hv _ (Nat.le_refl 1) (Or.inl rfl)
  · rw [if_neg hzero]
    rcases hget : getFat g v clst with ⟨cs, v₁⟩
    by_cases hc : g.IsCluster clst
    · obtain ⟨hs, he⟩ := getFat_eq hv hc hget
      have hend : ¬g.nFatent ≤ clst := by have := hc.2; omega
      by_cases hlow : cs < 2 ∨ g.nFatent ≤ clst
      · simp only [dif_pos hlow]
        refine .inconsistent hs (Or.inr ⟨hzero, ?_⟩)
        have hval : g.entries v clst = cs := (he.resolve_right fun h => by
          rw [h.1] at hlow
          exact absurd (hlow.resolve_right hend) (by decide)).symm
        rw [Geometry.links_of_cluster hc, hval]
        obtain rfl | rfl : cs = 0 ∨ cs = 1 := by omega
        · exact Or.inl rfl
        · exact Or.inr rfl
      by_cases herr : cs = diskError
      · simp only [dif_neg hlow, if_pos herr]
        rw [herr]
        refine .unread hs ?_
        obtain he | he := he
        · have := entries_lt g v clst
          omega
        · exact he.2
      have hval : g.entries v clst = cs := (he.resolve_right fun h => herr h.1).symm
      by_cases hnext : cs < g.nFatent
      · simp only [dif_neg hlow, if_neg herr, if_pos hnext]
        refine .followed (Geometry.links_eq_next_iff.mpr ⟨hc, ⟨by omega, hnext⟩, hval⟩) hs
      · simp only [dif_neg hlow, if_neg herr, if_neg hnext]
        refine created_of_shown hs (allocate_created hs.coherent _ (by omega) (Or.inr ?_))
        rw [hs.links]
        exact Geometry.links_eq_last_iff.mpr ⟨hc, by omega⟩
    · have hrange : clst < 2 ∨ g.nFatent ≤ clst := by
        unfold Geometry.IsCluster at hc
        omega
      rw [getFat, if_pos hrange] at hget
      cases hget
      simp only [dif_pos (show 1 < 2 ∨ g.nFatent ≤ clst from Or.inl (by omega))]
      exact .inconsistent (Shown.refl hv) (Or.inr ⟨hzero, Or.inr (if_neg hc)⟩)

theorem links_blank (hc : g.IsCluster c) : g.links (mounted blank) c = .free := by
  refine Geometry.links_eq_free_iff.mpr ⟨hc, ?_⟩
  have hbyte : ∀ i, g.bytes (mounted blank) i = 0 := by
    intro i
    unfold Geometry.bytes Window.view
    split <;> rfl
  unfold Geometry.entries FsType.entry
  cases g.fsType <;> simp [hbyte]

/-- What `create_chain` answers, for any number it is given, any hint and any table: 0 only
without a free cluster, 1 only for an entry that is none, an error only for a failed
transfer, else the next cluster or a free one that is linked behind. -/
theorem createChain_answers (hv : g.Coherent v) (clst : Nat) :
    let out := createChain g v clst
    (out.1 = 0 ∧ (∀ c, g.links v c ≠ .free) ∧ g.links out.2 = g.links v) ∨
      (out.1 = 1 ∧ ((∃ c, g.IsCluster c ∧ g.links v c = .bad) ∨
        (clst ≠ 0 ∧ (g.links v clst = .free ∨ g.links v clst = .bad))) ∧
        g.links out.2 = g.links v) ∨
      (out.1 = diskError ∧ ¬v.disk.Reliable ∧ (g.links out.2 = g.links v ∨
        ∃ n, g.links v n = .free ∧ ∀ a, a ≠ n → a ≠ clst → g.links out.2 a = g.links v a)) ∨
      (g.links v clst = .next out.1 ∧ g.links out.2 = g.links v) ∨
      (g.links v out.1 = .free ∧ (clst = 0 ∨ g.links v clst = .last) ∧
        g.links out.2 = taken (g.links v) clst out.1) := by
  intro out
  have h : Created g v clst out := createChain_created hv clst
  generalize out = out at h
  cases h with
  | full hshown hused => exact Or.inl ⟨rfl, hused, hshown.links⟩
  | inconsistent hshown hwhy => exact Or.inr (Or.inl ⟨rfl, hwhy, hshown.links⟩)
  | failed hkept hout =>
      obtain ⟨n, hfree, hother, -⟩ := hout.marked
      exact Or.inr (Or.inr (Or.inl ⟨rfl, hout.unreliable, Or.inr ⟨n, hfree, hother⟩⟩))
  | unread hshown hbad => exact Or.inr (Or.inr (Or.inl ⟨rfl, hbad, Or.inl hshown.links⟩))
  | followed hnext hshown => exact Or.inr (Or.inr (Or.inr (Or.inl ⟨hnext, hshown.links⟩)))
  | took hfree hkept hhints hlinks hend =>
      refine Or.inr (Or.inr (Or.inr (Or.inr ⟨hfree, hend, ?_⟩)))
      rw [links_of_window (noteTaken_toWindow _ _), hlinks]

/-- On a volume of zeros it takes a cluster. -/
theorem createChain_on_blank :
    floppy.links (mounted blank) (createChain floppy (mounted blank) 0).1 = .free := by
  obtain ⟨-, h, -⟩ | ⟨-, ⟨c, hc, h⟩ | ⟨h, -⟩, -⟩ | ⟨-, h, -⟩ | ⟨h, -⟩ | ⟨h, -⟩ :=
    createChain_answers (floppy.mounted_coherent blank) 0
  · exact absurd (links_blank (show floppy.IsCluster 2 by decide)) (h 2)
  · rw [links_blank hc] at h
    cases h
  · exact absurd rfl h
  · exact absurd blank_reliable h
  · exact absurd (Geometry.links_eq_next_iff.mp h).1 (by decide)
  · exact h

/-! ## Removal -/

/-- The update of the FSINFO data for a cluster that was freed. -/
def Volume.noteFreed (v : Volume) : Volume :=
  if v.freeClust ≠ 0xFFFFFFFF then
    { v with freeClust := v.freeClust + 1, fsiFlag := v.fsiFlag ||| 1 }
  else v

/-- The loop of `remove_chain`, for at most `fuel` rounds. -/
def removeLoop (g : Geometry) : Nat → Nat → Volume → Option (FResult × Volume)
  | 0, _, _ => none
  | fuel + 1, clst, v =>
      if g.nFatent ≤ clst then some (.ok, v)
      else
        match getFat g v clst with
        | (nxt, v) =>
            if nxt = 0 then some (.ok, v)
            else if nxt = 1 then some (.intErr, v)
            else if nxt = diskError then some (.diskErr, v)
            else
              match putFat g v clst 0 with
              | (.ok, v) => removeLoop g fuel nxt v.noteFreed
              | (res, v) => some (res, v)

def removeChain (g : Geometry) (v : Volume) (clst : Nat) : Option (FResult × Volume) :=
  if clst < 2 ∨ g.nFatent ≤ clst then some (.intErr, v) else removeLoop g g.nFatent clst v

namespace Geometry

variable (g)

def clusters : Finset Nat := (Finset.range g.nFatent).filter fun c => 2 ≤ c

/-- The number of free clusters. -/
def freeCount (t : Nat → Link Nat) : Nat := (freeCells g.clusters t).card

variable {g}

theorem mem_clusters_iff : c ∈ g.clusters ↔ g.IsCluster c := by
  unfold clusters IsCluster
  rw [Finset.mem_filter, Finset.mem_range, and_comm]

theorem card_clusters_lt : g.clusters.card < g.nFatent := by
  have hsub : g.clusters ⊂ Finset.range g.nFatent := by
    refine Finset.filter_ssubset.mpr ⟨0, ?_, by omega⟩
    have := g.someCluster
    exact Finset.mem_range.mpr (by omega)
  have := Finset.card_lt_card hsub
  rwa [Finset.card_range] at this

theorem freeCount_lt (t : Nat → Link Nat) : g.freeCount t < g.nFatent :=
  Nat.lt_of_le_of_lt (Finset.card_filter_le ..) card_clusters_lt

theorem freeCount_free {t : Nat → Link Nat} (hc : g.IsCluster c) (h : t c ≠ .free) :
    g.freeCount (Function.update t c .free) = g.freeCount t + 1 :=
  card_freeCells_free (mem_clusters_iff.mpr hc) h

theorem freeCount_take {t : Nat → Link Nat} {x : Link Nat} (hx : x ≠ .free)
    (hc : g.IsCluster c) (h : t c = .free) :
    g.freeCount (Function.update t c x) + 1 = g.freeCount t :=
  card_freeCells_take hx (mem_clusters_iff.mpr hc) h

end Geometry

theorem noteFreed_toWindow (v : Volume) : v.noteFreed.toWindow = v.toWindow := by
  unfold Volume.noteFreed
  split <;> rfl

/-- One round of the loop: it ends, or it frees a cluster in use and goes on. -/
theorem removeLoop_succ (hv : g.Coherent v) (hc : g.IsCluster c) (fuel : Nat) :
    (∃ v', Shown g v v' ∧ g.links v c = .free ∧
        removeLoop g (fuel + 1) c v = some (.ok, v')) ∨
      (∃ v', Shown g v v' ∧ g.links v c = .bad ∧
        removeLoop g (fuel + 1) c v = some (.intErr, v')) ∨
      (∃ v', Kept g v v' ∧ v'.hints = v.hints ∧ ¬v.disk.Reliable ∧
        (∀ a, a ≠ c → g.links v' a = g.links v a) ∧ (Whole g v → g.links v' = g.links v) ∧
        removeLoop g (fuel + 1) c v = some (.diskErr, v')) ∨
      (∃ v', Kept g v v' ∧ v'.hints = v.hints ∧
        (g.links v c = .last ∨ g.links v c = .next (g.entries v c)) ∧
        g.links v' = Function.update (g.links v) c .free ∧
        removeLoop g (fuel + 1) c v = removeLoop g fuel (g.entries v c) v'.noteFreed) := by
  have hend : ¬g.nFatent ≤ c := by have := hc.2; omega
  rcases hget : getFat g v c with ⟨nxt, v₁⟩
  obtain ⟨hs, he⟩ := getFat_eq hv hc hget
  simp only [removeLoop, if_neg hend, hget]
  by_cases h0 : nxt = 0
  · refine Or.inl ⟨v₁, hs, Geometry.links_eq_free_iff.mpr ⟨hc, ?_⟩, if_pos h0⟩
    obtain he | ⟨he, -⟩ := he
    · exact he.symm.trans h0
    · rw [h0] at he; cases he
  by_cases h1 : nxt = 1
  · refine Or.inr (Or.inl ⟨v₁, hs, ?_, by rw [if_neg h0, if_pos h1]⟩)
    obtain he | ⟨he, -⟩ := he
    · rw [Geometry.links_of_cluster hc, ← he, h1]; rfl
    · rw [h1] at he; cases he
  by_cases herr : nxt = diskError
  · refine Or.inr (Or.inr (Or.inl ⟨v₁, hs.toKept, hs.hints, ?_, fun a _ =>
      congrFun hs.links a, fun _ => hs.links, by rw [if_neg h0, if_neg h1, if_pos herr]⟩))
    obtain he | ⟨-, hbad⟩ := he
    · have := entries_lt g v c
      omega
    · exact hbad
  have hval : nxt = g.entries v c := he.resolve_right fun h => herr h.1
  refine Or.inr (Or.inr ?_)
  simp only [if_neg h0, if_neg h1, if_neg herr]
  have hput := putFat_links hs.coherent hc 0
  rw [Geometry.link_zero, hs.links] at hput
  rcases hres : putFat g v₁ c 0 with ⟨res, v₂⟩
  rw [hres] at hput
  obtain ⟨hk, hh, ⟨rfl, hl⟩ | ⟨rfl, hbad, hother, hwhole⟩⟩ := hput
  · refine Or.inr ⟨v₂, hs.toKept.trans hk, hh.trans hs.hints, ?_, hl, by rw [hval]⟩
    rw [Geometry.links_of_cluster hc]
    by_cases hlast : g.nFatent ≤ g.entries v c
    · exact Or.inl (Geometry.link_eq_last_iff.mpr hlast)
    · exact Or.inr (Geometry.link_eq_next_iff.mpr ⟨⟨by omega, by omega⟩, rfl⟩)
  · exact Or.inl ⟨v₂, hs.toKept.trans hk, hh.trans hs.hints,
      fun hr => hbad (hr.after hs.after), hother, fun hw => hwhole (hw.after hs.after), rfl⟩

/-- Removal ends: every round frees a cluster that was not free. -/
theorem removeLoop_returns {fuel : Nat} (hv : g.Coherent v) (hc : 2 ≤ c)
    (hfuel : g.nFatent < g.freeCount (g.links v) + fuel + 1) :
    ∃ out, removeLoop g fuel c v = some out ∧ Kept g v out.2 := by
  induction fuel generalizing c v with
  | zero =>
      have := Geometry.freeCount_lt (g := g) (g.links v)
      omega
  | succ fuel ih =>
      by_cases hend : g.nFatent ≤ c
      · exact ⟨_, by rw [removeLoop, if_pos hend], Kept.refl hv⟩
      have hcl : g.IsCluster c := ⟨hc, by omega⟩
      obtain ⟨v', hs, -, h⟩ | ⟨v', hs, -, h⟩ | ⟨v', hk, -, -, -, -, h⟩ |
        ⟨v', hk, -, hnext, hl, h⟩ := removeLoop_succ hv hcl fuel
      · exact ⟨_, h, hs.toKept⟩
      · exact ⟨_, h, hs.toKept⟩
      · exact ⟨_, h, hk⟩
      · have hused : g.links v c ≠ .free := by
          obtain hn | hn := hnext <;> rw [hn] <;> simp
        have hmore : g.freeCount (g.links v'.noteFreed) = g.freeCount (g.links v) + 1 := by
          rw [links_of_window (noteFreed_toWindow v'), hl, Geometry.freeCount_free hcl hused]
        have hkept := kept_of_window hk (noteFreed_toWindow v')
        have hlow : 2 ≤ g.entries v c := by
          obtain hn | hn := hnext
          · have := (Geometry.links_eq_last_iff.mp hn).2
            have := g.someCluster
            omega
          · exact (Geometry.links_eq_next_iff.mp hn).2.1.1
        obtain ⟨out, hout, hk'⟩ := ih hkept.coherent hlow (by omega)
        exact ⟨out, h.trans hout, hkept.trans hk'⟩

/-- Removal of a chain frees its clusters, or some of them from the first on. -/
theorem removeLoop_chain {l : List Nat} {fuel : Nat} (hv : g.Coherent v)
    (hl : Linked (g.links v) (c :: l)) (hfuel : l.length + 1 < fuel) :
    (∃ v', Kept g v v' ∧ g.links v' = freed (g.links v) (c :: l) ∧
        removeLoop g fuel c v = some (.ok, v')) ∨
      (¬v.disk.Reliable ∧ ∃ p b r v', c :: l = p ++ b :: r ∧ Kept g v v' ∧
        (∀ a, a ≠ b → g.links v' a = freed (g.links v) p a) ∧
        (Whole g v → g.links v' = freed (g.links v) p) ∧
        removeLoop g fuel c v = some (.diskErr, v')) := by
  induction l generalizing c v fuel with
  | nil =>
      obtain ⟨fuel, rfl⟩ : ∃ f, fuel = f + 1 + 1 := ⟨fuel - 2, by omega⟩
      have hend : g.links v c = .last := hl
      obtain ⟨hcl, hlast⟩ := Geometry.links_eq_last_iff.mp hend
      obtain ⟨v', -, hfree, -⟩ | ⟨v', -, hbad, -⟩ | ⟨v', hk, -, hbad, hother, hwhole, h⟩ |
        ⟨v', hk, -, -, hlinks, h⟩ := removeLoop_succ hv hcl (fuel + 1)
      · cases hend.symm.trans hfree
      · cases hend.symm.trans hbad
      · exact Or.inr ⟨hbad, [], c, [], v', rfl, hk, hother, hwhole, h⟩
      · refine Or.inl ⟨v'.noteFreed, kept_of_window hk (noteFreed_toWindow v'), ?_, ?_⟩
        · rw [links_of_window (noteFreed_toWindow v'), hlinks]
          exact freed_update (g.links v) c []
        · rw [h, removeLoop, if_pos hlast]
  | cons d l ih =>
      obtain ⟨fuel, rfl⟩ : ∃ f, fuel = f + 1 := ⟨fuel - 1, by omega⟩
      have hnext : g.links v c = .next d := hl.1
      obtain ⟨hcl, -, hval⟩ := Geometry.links_eq_next_iff.mp hnext
      obtain ⟨v', -, hfree, -⟩ | ⟨v', -, hbad, -⟩ | ⟨v', hk, -, hbad, hother, hwhole, h⟩ |
        ⟨v', hk, -, -, hlinks, h⟩ := removeLoop_succ hv hcl fuel
      · cases hnext.symm.trans hfree
      · cases hnext.symm.trans hbad
      · exact Or.inr ⟨hbad, [], c, d :: l, v', rfl, hk, hother, hwhole, h⟩
      · have hlinks' : g.links v'.noteFreed = Function.update (g.links v) c .free := by
          rw [links_of_window (noteFreed_toWindow v'), hlinks]
        have hk' := kept_of_window hk (noteFreed_toWindow v')
        have hc : c ∉ d :: l := (List.nodup_cons.mp hl.nodup).1
        have hrest : Linked (g.links v'.noteFreed) (d :: l) := by
          refine hl.tail.congr fun a ha => ?_
          rw [hlinks', Function.update_of_ne (fun he : a = c => hc (he ▸ ha))]
        have hless : l.length + 1 < fuel := by
          rw [List.length_cons] at hfuel
          omega
        rw [hval] at h
        obtain ⟨w, hkw, hlw, hw⟩ | ⟨hbad, p, b, r, w, heq, hkw, hother, hwhole, hw⟩ :=
          ih hk'.coherent hrest hless
        · refine Or.inl ⟨w, hk'.trans hkw, ?_, h.trans hw⟩
          rw [hlw, hlinks', freed_update]
        · refine Or.inr ⟨fun hr => hbad (hr.after hk'.after), c :: p, b, r, w, ?_,
            hk'.trans hkw, fun a ha => ?_, fun hwh => ?_, h.trans hw⟩
          · rw [heq]; rfl
          · rw [hother a ha, hlinks', freed_update]
          · rw [hwhole (hwh.after hk'.after), hlinks', freed_update]

theorem length_lt_of_linked {l : List Nat} (hl : Linked (g.links v) l) :
    l.length + 1 < g.nFatent := by
  have hsub : l.toFinset ⊆ g.clusters := by
    intro a ha
    refine Geometry.mem_clusters_iff.mpr (Geometry.isCluster_of_links (v := v) fun hbad => ?_)
    obtain h | ⟨b, -, h⟩ := hl.used (List.mem_toFinset.mp ha) <;> cases h.symm.trans hbad
  have hcard := Finset.card_le_card hsub
  rw [List.toFinset_card_of_nodup hl.nodup] at hcard
  have hclusters : g.clusters.card + 2 ≤ g.nFatent := by
    have heq : g.clusters = Finset.Ico 2 g.nFatent := by
      ext a
      rw [Geometry.mem_clusters_iff, Finset.mem_Ico, Geometry.IsCluster]
    have := g.someCluster
    rw [heq, Nat.card_Ico]
    omega
  omega

/-- `remove_chain` given the first cluster of a chain. -/
theorem removeChain_chain {l : List Nat} (hv : g.Coherent v)
    (hl : Linked (g.links v) (c :: l)) :
    (∃ v', Kept g v v' ∧ g.links v' = freed (g.links v) (c :: l) ∧
        removeChain g v c = some (.ok, v')) ∨
      (¬v.disk.Reliable ∧ ∃ p b r v', c :: l = p ++ b :: r ∧ Kept g v v' ∧
        (∀ a, a ≠ b → g.links v' a = freed (g.links v) p a) ∧
        (Whole g v → g.links v' = freed (g.links v) p) ∧
        removeChain g v c = some (.diskErr, v')) := by
  have hcl : g.IsCluster c := by
    refine Geometry.isCluster_of_links (v := v) fun hbad => ?_
    obtain h | ⟨b, -, h⟩ := hl.used List.mem_cons_self <;> cases h.symm.trans hbad
  have hlen := length_lt_of_linked hl
  rw [List.length_cons] at hlen
  unfold removeChain
  rw [if_neg (getFat_range hcl)]
  exact removeLoop_chain hv hl (by omega)

/-- Removal returns on every table, also on one that links in a circle; of a chain it
frees all clusters, unless a transfer fails. -/
theorem removeChain_ends (hv : g.Coherent v) (c : Nat) :
    ∃ out, removeChain g v c = some out ∧ g.Coherent out.2 ∧
      ∀ l, Linked (g.links v) (c :: l) →
        (out.1 = .ok ∧ g.links out.2 = freed (g.links v) (c :: l)) ∨
          (out.1 = .diskErr ∧ ¬v.disk.Reliable) := by
  have hreturn : ∃ out, removeChain g v c = some out ∧ g.Coherent out.2 := by
    unfold removeChain
    split
    · exact ⟨_, rfl, hv⟩
    · next hrange =>
        have hfuel : g.nFatent < g.freeCount (g.links v) + g.nFatent + 1 := by omega
        obtain ⟨out, hout, hk⟩ := removeLoop_returns hv (c := c) (by omega) hfuel
        exact ⟨out, hout, hk.coherent⟩
  obtain ⟨out, hout, hcoh⟩ := hreturn
  refine ⟨out, hout, hcoh, fun l hl => ?_⟩
  obtain ⟨w, -, hlw, h⟩ | ⟨hbad, -, -, -, w, -, -, -, -, h⟩ := removeChain_chain hv hl
  · cases hout.symm.trans h
    exact Or.inl ⟨rfl, hlw⟩
  · cases hout.symm.trans h
    exact Or.inr ⟨rfl, hbad⟩

/-- A drive with these bytes in the table of `floppy`, whose transfer `n` fails. -/
def tableDrive (n : Nat) (b : List UInt8) : Drive Sector :=
  { faulty n with data := fun s i => if s = 1 then b.getD i 0 else 0 }

theorem tableDrive_linked :
    Linked (floppy.links (mounted (tableDrive 9 [0, 0, 0, 0x03, 0xF0, 0xFF]))) [2, 3] :=
  ⟨Geometry.links_eq_next_iff.mpr (by decide), Geometry.links_eq_last_iff.mpr (by decide)⟩

/-- The chain of the clusters 2 and 3 is freed, or a transfer failed, and removal also ends
where 3 leads back to 2. -/
theorem removeChain_on_links :
    (∃ v', removeChain floppy (mounted (tableDrive 9 [0, 0, 0, 0x03, 0xF0, 0xFF])) 2 =
        some (.ok, v') ∧ floppy.links v' 2 = .free ∧ floppy.links v' 3 = .free) ∧
      (∃ v', removeChain floppy (mounted (tableDrive 0 [0, 0, 0, 0x03, 0xF0, 0xFF])) 2 =
        some (.diskErr, v')) ∧
      ∃ v', removeChain floppy (mounted (tableDrive 9 [0, 0, 0, 0x03, 0x20, 0x00])) 2 =
        some (.ok, v') := by
  have hwhole : (removeChain floppy (mounted (tableDrive 9 [0, 0, 0, 0x03, 0xF0, 0xFF])) 2).map
      Prod.fst = some .ok := by decide +kernel
  have hfail : (removeChain floppy (mounted (tableDrive 0 [0, 0, 0, 0x03, 0xF0, 0xFF])) 2).map
      Prod.fst = some .diskErr := by decide +kernel
  have hring : (removeChain floppy (mounted (tableDrive 9 [0, 0, 0, 0x03, 0x20, 0x00])) 2).map
      Prod.fst = some .ok := by decide +kernel
  refine ⟨?_, ?_, ?_⟩
  · obtain ⟨⟨res, v'⟩, hrun, -, hall⟩ := removeChain_ends (floppy.mounted_coherent
      (tableDrive 9 [0, 0, 0, 0x03, 0xF0, 0xFF])) 2
    rw [hrun] at hwhole
    cases hwhole
    obtain ⟨-, hlinks⟩ | ⟨herr, -⟩ := hall [3] tableDrive_linked
    · have hlinks' : floppy.links v' = _ := hlinks
      refine ⟨v', hrun, ?_, ?_⟩
      · rw [hlinks']
        exact freed_of_mem (by decide)
      · rw [hlinks']
        exact freed_of_mem (by decide)
    · cases herr
  · obtain ⟨⟨res, v'⟩, hrun, -⟩ := removeChain_ends (floppy.mounted_coherent
      (tableDrive 0 [0, 0, 0, 0x03, 0xF0, 0xFF])) 2
    rw [hrun] at hfail
    cases hfail
    exact ⟨v', hrun⟩
  · obtain ⟨⟨res, v'⟩, hrun, -⟩ := removeChain_ends (floppy.mounted_coherent
      (tableDrive 9 [0, 0, 0, 0x03, 0x20, 0x00])) 2
    rw [hrun] at hring
    cases hring
    exact ⟨v', hrun⟩

end Fat
end ImuFirmware
