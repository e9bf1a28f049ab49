/-
Files and directories as owners of cluster chains, over whole runs.

A step of `ChainStep` is one call of the allocation layer by one owner, with what that
owner takes its chain to be afterwards: longer by the cluster the call returned, or
shorter by what it freed.  Whatever the order of the calls and whichever transfers fail,
the table says the same.
-/
import ImuFirmware.Fat.Chain
import Mathlib.Logic.Relation

namespace ImuFirmware
namespace Fat

open Storage

/-- The part of `f_truncate` that removes the clusters behind `clust`. -/
def cutChain (g : Geometry) (v : Volume) (clust : Nat) : Option (FResult × Volume) :=
  match getFat g v clust with
  | (ncl, v) =>
      if ncl = diskError then some (.diskErr, v)
      else if ncl = 1 then some (.intErr, v)
      else if ncl < g.nFatent then
        match putFat g v clust 0x0FFFFFFF with
        | (.ok, v) => removeChain g v ncl
        | (res, v) => some (res, v)
      else some (.ok, v)

variable {ι : Type} [DecidableEq ι]

/-- The chains after `create_chain` answered `n` to the owner `i`. -/
def grown (g : Geometry) (chains : ι → List Nat) (i : ι) (n : Nat) : ι → List Nat :=
  if g.IsCluster n ∧ n ∉ chains i then Function.update chains i (chains i ++ [n]) else chains

/-- The calls of one owner at a time. -/
inductive ChainStep (g : Geometry) :
    Volume × (ι → List Nat) → Volume × (ι → List Nat) → Prop
  /-- `move_window` on behalf of a directory. -/
  | visit {v chains} (s : Nat) (hs : g.home s) :
      ChainStep g (v, chains) ((moveWindow g v s).2, chains)
  | look {v chains} (c : Nat) : ChainStep g (v, chains) ((getFat g v c).2, chains)
  | create {v chains} (i : ι) (hnone : chains i = []) :
      ChainStep g (v, chains) ((createChain g v 0).2, grown g chains i (createChain g v 0).1)
  | stretch {v chains} (i : ι) (c : Nat) (hc : c ∈ chains i) :
      ChainStep g (v, chains) ((createChain g v c).2, grown g chains i (createChain g v c).1)
  /-- What is still marked is still the owner's. -/
  | remove {v chains} (i : ι) (c : Nat) (l : List Nat) (hc : chains i = c :: l) {res v'}
      (hout : removeChain g v c = some (res, v')) :
      ChainStep g (v, chains)
        (v', Function.update chains i ((c :: l).filter fun a => g.links v' a ≠ .free))
  /-- What is behind a last link is nobody's. -/
  | cut {v chains} (i : ι) (l : List Nat) (c : Nat) (r : List Nat) (hc : chains i = l ++ c :: r)
      {res v'} (hout : cutChain g v c = some (res, v')) :
      ChainStep g (v, chains) (v', Function.update chains i
        (if g.links v' c = .last then l ++ [c] else l ++ c :: r))

variable {g : Geometry} {v v' : Volume} {chains : ι → List Nat} {i : ι} {c n : Nat}

theorem isCluster_of_linked {l : List Nat} (hl : Linked (g.links v) l) (hc : c ∈ l) :
    g.IsCluster c := by
  refine Geometry.isCluster_of_links (v := v) fun hbad => ?_
  obtain h | ⟨b, -, h⟩ := hl.used hc <;> cases h.symm.trans hbad

theorem not_isCluster_diskError (g : Geometry) : ¬g.IsCluster diskError := by
  intro h
  have hmod := Geometry.IsCluster.mod h
  cases hf : g.fsType <;> rw [hf] at hmod <;> revert hmod <;> decide

theorem grown_of_not (h : ¬g.IsCluster n) : grown g chains i n = chains :=
  if_neg fun hn => h hn.1

/-- The chains stay apart when `create_chain` is called for a chain's own cluster, or for
none on behalf of an empty chain. -/
theorem apart_created {clst : Nat} {out : Nat × Volume} (h : Created g v clst out)
    (hw : Whole g v) (ha : Apart (g.links v) chains)
    (hown : (clst = 0 ∧ chains i = []) ∨ clst ∈ chains i) :
    Apart (g.links out.2) (grown g chains i out.1) := by
  have hne : clst ∈ chains i → clst ≠ 0 := by
    rintro hmem rfl
    have := (isCluster_of_linked (ha.linked i) hmem).1
    omega
  cases h with
  | @took n v' hfree hkept hhints hlinks hend =>
      have hcl := (Geometry.links_eq_free_iff.mp hfree).1
      have hout : ∀ j, n ∉ chains j := fun j hmem => (ha.linked j).not_free hmem hfree
      have hgrown : grown g chains i n = Function.update chains i (chains i ++ [n]) :=
        if_pos ⟨hcl, hout i⟩
      rw [hgrown, links_of_window (noteTaken_toWindow v' n), hlinks]
      have hkeep : ∀ j, j ≠ i → ∀ a ∈ chains j, taken (g.links v) clst n a = g.links v a := by
        intro j hj a hmem
        have han : a ≠ n := fun he => hout j (he ▸ hmem)
        unfold taken
        split
        · exact Function.update_of_ne han ..
        · next hzero =>
            have hac : a ≠ clst := by
              rintro rfl
              exact ha.disjoint j i hj a hmem (hown.resolve_left fun h => hzero h.1)
            rw [Function.update_of_ne hac, Function.update_of_ne han]
      refine ha.change ?_ hkeep fun a hmem => ?_
      · obtain ⟨rfl, hnone⟩ | hmem := hown
        · rw [hnone, taken, if_pos rfl]
          exact Linked.single _ n
        · have hlast := hend.resolve_left (hne hmem)
          obtain ⟨p, hp⟩ := (ha.linked i).eq_end hmem hlast
          have hl := ha.linked i
          have hn := hout i
          rw [hp] at hl hn
          rw [hp, taken, if_neg (hne hmem), List.append_assoc]
          exact hl.extend hn
      · obtain h | h := List.mem_append.mp hmem
        · exact Or.inl h
        · exact Or.inr (List.mem_singleton.mp h ▸ hfree)
  | @followed n v' hnext hshown =>
      have hmem : clst ∈ chains i := by
        refine hown.resolve_left fun h => ?_
        have := (Geometry.links_eq_next_iff.mp hnext).1.1
        omega
      have hn := (ha.linked i).next_mem hmem hnext
      have hgrown : grown g chains i n = chains := if_neg fun h => h.2 hn
      rw [hgrown, hshown.links]
      exact ha
  | full hshown hused =>
      rw [grown_of_not (by unfold Geometry.IsCluster; omega), hshown.links]
      exact ha
  | inconsistent hshown =>
      rw [grown_of_not (by unfold Geometry.IsCluster; omega), hshown.links]
      exact ha
  | failed hkept hout =>
      rw [grown_of_not (not_isCluster_diskError g)]
      obtain ⟨n, hfree, -, hwhole⟩ := hout.marked
      obtain h | h := hwhole hw
      · rw [h]; exact ha
      · rw [h]; exact ha.of_free hfree .last
  | unread hshown hbad =>
      rw [grown_of_not (not_isCluster_diskError g), hshown.links]
      exact ha

/-- What of a chain is still marked after some of it was freed from the front. -/
theorem filter_freed {t t' : Nat → Link Nat} {p r : List Nat} (hl : Linked t (p ++ r))
    (h : ∀ a, t' a = freed t p a) : (p ++ r).filter (fun a => t' a ≠ .free) = r := by
  have hnodup := hl.nodup
  have hp : p.filter (fun a => t' a ≠ .free) = [] := by
    refine List.filter_eq_nil_iff.mpr fun a ha => ?_
    simp [h a, freed_of_mem ha]
  have hr : r.filter (fun a => t' a ≠ .free) = r := by
    refine List.filter_eq_self.mpr fun a ha => ?_
    have hout : a ∉ p := fun hmem => List.disjoint_of_nodup_append hnodup hmem ha
    have hused := hl.append_right.not_free ha
    simp [h a, freed_of_notMem hout, hused]
  rw [List.filter_append, hp, hr, List.nil_append]

theorem linked_freed {t t' : Nat → Link Nat} {p r : List Nat} (hl : Linked t (p ++ r))
    (h : ∀ a, t' a = freed t p a) : Linked t' r :=
  hl.append_right.congr fun a ha => (h a).trans
    (freed_of_notMem fun hmem => List.disjoint_of_nodup_append hl.nodup hmem ha)

/-- What `remove_chain` leaves of the links, for a chain. -/
theorem removeChain_freed {l : List Nat} {res : FResult} (hv : g.Coherent v) (hw : Whole g v)
    (hl : Linked (g.links v) (c :: l)) (hout : removeChain g v c = some (res, v')) :
    Kept g v v' ∧ ∃ p r, c :: l = p ++ r ∧ g.links v' = freed (g.links v) p := by
  obtain ⟨w, hk, hlw, h⟩ | ⟨-, p, b, r, w, heq, hk, -, hwhole, h⟩ := removeChain_chain hv hl
  · cases hout.symm.trans h
    exact ⟨hk, c :: l, [], (List.append_nil _).symm, hlw⟩
  · cases hout.symm.trans h
    exact ⟨hk, p, b :: r, heq, hwhole hw⟩

theorem apart_remove {l : List Nat} {res : FResult} (hv : g.Coherent v) (hw : Whole g v)
    (ha : Apart (g.links v) chains) (hc : chains i = c :: l)
    (hout : removeChain g v c = some (res, v')) :
    Kept g v v' ∧ Apart (g.links v')
      (Function.update chains i ((c :: l).filter fun a => g.links v' a ≠ .free)) := by
  have hl := ha.linked i
  rw [hc] at hl
  obtain ⟨hk, p, r, heq, hlw⟩ := removeChain_freed hv hw hl hout
  rw [heq] at hl hc
  refine ⟨hk, ?_⟩
  rw [heq, filter_freed hl (congrFun hlw)]
  refine ha.change (linked_freed hl (congrFun hlw)) (fun j hj a hmem => ?_) fun a hmem => ?_
  · rw [hlw]
    refine freed_of_notMem fun hp => ha.disjoint j i hj a hmem ?_
    rw [hc]
    exact List.mem_append_left r hp
  · rw [hc]
    exact Or.inl (List.mem_append_right p hmem)

/-- With the table as it was, cutting has changed nothing. -/
theorem cut_unchanged {l r : List Nat} (hl : Linked (g.links v) (l ++ c :: r))
    (h : g.links v' = g.links v) :
    (if g.links v' c = .last then l ++ [c] else l ++ c :: r) = l ++ c :: r := by
  split
  · next hlast =>
      rw [h] at hlast
      cases r with
      | nil => rfl
      | cons b r => cases hlast.symm.trans hl.next_eq
  · rfl

/-- Cutting changes nothing, or it marks the cluster and removes what was behind it. -/
theorem cutChain_cases (hv : g.Coherent v) (hcl : g.IsCluster c) :
    (∃ v' res, Kept g v v' ∧ v'.hints = v.hints ∧ (Whole g v → g.links v' = g.links v) ∧
        cutChain g v c = some (res, v')) ∨
      (∃ v', Kept g v v' ∧ v'.hints = v.hints ∧ g.entries v c < g.nFatent ∧
        g.links v' = Function.update (g.links v) c .last ∧
        cutChain g v c = removeChain g v' (g.entries v c)) := by
  unfold cutChain
  rcases hget : getFat g v c with ⟨ncl, v₁⟩
  obtain ⟨hs, he⟩ := getFat_eq hv hcl hget
  by_cases herr : ncl = diskError
  · exact Or.inl ⟨v₁, .diskErr, hs.toKept, hs.hints, fun _ => hs.links, if_pos herr⟩
  by_cases hone : ncl = 1
  · exact Or.inl ⟨v₁, .intErr, hs.toKept, hs.hints, fun _ => hs.links,
      (if_neg herr).trans (if_pos hone)⟩
  by_cases hlast : ncl < g.nFatent
  swap
  · exact Or.inl ⟨v₁, .ok, hs.toKept, hs.hints, fun _ => hs.links,
      (if_neg herr).trans ((if_neg hone).trans (if_neg hlast))⟩
  have hval : ncl = g.entries v c := he.resolve_right fun h => herr h.1
  have hput := putFat_links hs.coherent hcl 0x0FFFFFFF
  rw [Geometry.link_mark, hs.links] at hput
  simp only [if_neg herr, if_neg hone, if_pos hlast]
  rcases hres : putFat g v₁ c 0x0FFFFFFF with ⟨res, v₂⟩
  rw [hres] at hput
  obtain ⟨hk, hh, ⟨rfl, hl⟩ | ⟨rfl, -, -, hwhole⟩⟩ := hput
  · exact Or.inr ⟨v₂, hs.toKept.trans hk, hh.trans hs.hints, hval ▸ hlast, hl, by rw [hval]⟩
  · exact Or.inl ⟨v₂, .diskErr, hs.toKept.trans hk, hh.trans hs.hints,
      fun hw => hwhole (hw.after hs.after), rfl⟩

/-- A chain up to a cluster shares nothing with what is behind it. -/
theorem behind_apart {l r : List Nat} {t : Nat → Link Nat} (hl : Linked t (l ++ c :: r)) :
    ∀ a ∈ r, a ≠ c ∧ a ∉ l ++ [c] := by
  intro a hmem
  have hnodup := hl.nodup
  rw [← List.singleton_append, ← List.append_assoc] at hnodup
  have hout : a ∉ l ++ [c] := fun hin => List.disjoint_of_nodup_append hnodup hin hmem
  exact ⟨fun he => hout (he ▸ List.mem_append_right l List.mem_cons_self), hout⟩

theorem apart_cut {l r : List Nat} {res : FResult} (hv : g.Coherent v) (hw : Whole g v)
    (ha : Apart (g.links v) chains) (hc : chains i = l ++ c :: r)
    (hout : cutChain g v c = some (res, v')) :
    Kept g v v' ∧ Apart (g.links v') (Function.update chains i
      (if g.links v' c = .last then l ++ [c] else l ++ c :: r)) := by
  have hl := ha.linked i
  rw [hc] at hl
  have hmem := List.mem_append_right l (List.mem_cons_self (a := c) (l := r))
  have hcl := isCluster_of_linked hl hmem
  obtain ⟨w, res', hk, -, hwhole, h⟩ | ⟨v₁, hk, -, hlow, hl₁, h⟩ := cutChain_cases hv hcl
  · cases hout.symm.trans h
    rw [cut_unchanged hl (hwhole hw), ← hc, Function.update_eq_self, hwhole hw]
    exact ⟨hk, ha⟩
  -- an entry below the table's size in a chain is the next cluster
  obtain ⟨b, r, rfl, hnext⟩ : ∃ b r', r = b :: r' ∧ g.entries v c = b := by
    cases r with
    | nil =>
        have := (Geometry.links_eq_last_iff.mp hl.last_eq).2
        omega
    | cons b r => exact ⟨b, r, rfl, (Geometry.links_eq_next_iff.mp hl.next_eq).2.2⟩
  have hnot := behind_apart hl
  have hrest : Linked (g.links v₁) (b :: r) := by
    refine hl.append_right.tail.congr fun a hmem => ?_
    rw [hl₁, Function.update_of_ne (hnot a hmem).1]
  rw [h, hnext] at hout
  obtain ⟨hk', p, q, heq, hlw⟩ := removeChain_freed hk.coherent (hw.after hk.after) hrest hout
  have hp : ∀ a ∈ p, a ∈ b :: r := fun a hmem => heq ▸ List.mem_append_left q hmem
  have hmark : g.links v' c = .last := by
    rw [hlw, freed_of_notMem fun hmem => (hnot c (hp c hmem)).1 rfl, hl₁, Function.update_self]
  refine ⟨hk.trans hk', ?_⟩
  rw [if_pos hmark]
  refine ha.change ?_ (fun j hj a hmem => ?_) fun a hmem => ?_
  · refine hl.cut.congr fun a hmem => ?_
    rw [hlw, freed_of_notMem fun h => (hnot a (hp a h)).2 hmem, hl₁]
  · have hown : ∀ d ∈ l ++ c :: b :: r, a ≠ d := by
      rintro d hd rfl
      exact ha.disjoint j i hj a hmem (hc ▸ hd)
    have hap : a ∉ p := fun h =>
      hown a (List.mem_append_right l (List.mem_cons_of_mem c (hp a h))) rfl
    rw [hlw, freed_of_notMem hap, hl₁, Function.update_of_ne (hown c (by simp))]
  · rw [hc]
    refine Or.inl ?_
    simp only [List.mem_append, List.mem_cons, List.not_mem_nil, or_false] at hmem ⊢
    tauto

/-! ## Runs -/

theorem chainStep_keeps {s s' : Volume × (ι → List Nat)} (hstep : ChainStep g s s')
    (hv : g.Coherent s.1) (hw : Whole g s.1) (ha : Apart (g.links s.1) s.2) :
    g.Coherent s'.1 ∧ s.1.disk.After s'.1.disk ∧ Apart (g.links s'.1) s'.2 := by
  cases hstep with
  | @visit v chains s hs =>
      obtain ⟨hv', hafter, -, hview⟩ := moveWindow_home hv hs
      refine ⟨hv', hafter, ?_⟩
      rw [links_of_view hview]
      exact ha
  | @look v chains c =>
      have hs := getFat_shown hv c
      refine ⟨hs.coherent, hs.after, ?_⟩
      rw [hs.links]
      exact ha
  | @create v chains i hnone =>
      have hc := createChain_created hv 0
      exact ⟨hc.kept.coherent, hc.kept.after, apart_created hc hw ha (Or.inl ⟨rfl, hnone⟩)⟩
  | @stretch v chains i c hc =>
      have hcr := createChain_created hv c
      exact ⟨hcr.kept.coherent, hcr.kept.after, apart_created hcr hw ha (Or.inr hc)⟩
  | @remove v chains i c l hc res v' hout =>
      obtain ⟨hk, ha'⟩ := apart_remove hv hw ha hc hout
      exact ⟨hk.coherent, hk.after, ha'⟩
  | @cut v chains i l c r hc res v' hout =>
      obtain ⟨hk, ha'⟩ := apart_cut hv hw ha hc hout
      exact ⟨hk.coherent, hk.after, ha'⟩

/-- No cluster comes to be in two chains, or twice in one. -/
theorem chains_stay_apart {s s' : Volume × (ι → List Nat)}
    (hrun : Relation.ReflTransGen (ChainStep g) s s') (hv : g.Coherent s.1) (hw : Whole g s.1)
    (ha : Apart (g.links s.1) s.2) :
    Apart (g.links s'.1) s'.2 ∧ ∀ i, (s'.2 i).Nodup := by
  have hall : g.Coherent s'.1 ∧ Whole g s'.1 ∧ Apart (g.links s'.1) s'.2 := by
    induction hrun with
    | refl => exact ⟨hv, hw, ha⟩
    | tail _ hstep ih =>
        obtain ⟨hv', hafter, ha'⟩ := chainStep_keeps hstep ih.1 ih.2.1 ih.2.2
        exact ⟨hv', ih.2.1.after hafter, ha'⟩
  exact ⟨hall.2.2, fun i => (hall.2.2.linked i).nodup⟩

/-- Two files ask for a first cluster, and for the one whose call failed it is repeated. -/
theorem chains_on_faulty :
    ∃ s : Volume × (Bool → List Nat),
      Relation.ReflTransGen (ChainStep floppy) (mounted (faulty 0), fun _ => []) s ∧
        s.2 true = [3] ∧ s.2 false = [2] ∧ Apart (floppy.links s.1) s.2 := by
  have hfirst : ChainStep floppy (mounted (faulty 0), fun _ : Bool => []) _ := .create true rfl
  have hsecond := (Relation.ReflTransGen.single hfirst).tail (.create false (by decide +kernel))
  have hrun := hsecond.tail (.create true (by decide +kernel))
  exact ⟨_, hrun, by decide +kernel, by decide +kernel,
    (chains_stay_apart hrun (floppy.mounted_coherent _) (floppy_whole _) (.empty _)).1⟩

/-! ## The count of free clusters -/

/-- A known count promises no less than there is, and the same where `exact`. -/
structure Tally (g : Geometry) (exact : Prop) (v : Volume) : Prop where
  lt : v.freeClust < 2 ^ 32
  le : v.freeClust ≠ 0xFFFFFFFF → g.freeCount (g.links v) ≤ v.freeClust
  eq : exact → v.freeClust ≠ 0xFFFFFFFF → g.freeCount (g.links v) = v.freeClust

variable {exact : Prop}

theorem Tally.of_links (h : Tally g exact v) (hl : g.links v' = g.links v)
    (hh : v'.hints = v.hints) : Tally g exact v' := by
  have hfree : v'.freeClust = v.freeClust := congrArg (fun p => p.2.2) hh
  exact ⟨by rw [hfree]; exact h.lt, by rw [hfree, hl]; exact h.le, by rw [hfree, hl]; exact h.eq⟩

theorem Tally.of_fewer (h : Tally g exact v)
    (hl : g.freeCount (g.links v') ≤ g.freeCount (g.links v))
    (hh : v'.hints = v.hints) (hno : ¬exact) : Tally g exact v' := by
  have hfree : v'.freeClust = v.freeClust := congrArg (fun p => p.2.2) hh
  refine ⟨by rw [hfree]; exact h.lt, fun hk => ?_, fun he => absurd he hno⟩
  rw [hfree] at hk ⊢
  exact Nat.le_trans hl (h.le hk)

theorem Tally.noteFreed (h : Tally g exact v) (hh : v'.hints = v.hints)
    (hmore : g.freeCount (g.links v') = g.freeCount (g.links v) + 1) :
    Tally g exact v'.noteFreed := by
  have hfree : v'.freeClust = v.freeClust := congrArg (fun p => p.2.2) hh
  have hlinks := links_of_window (g := g) (noteFreed_toWindow v')
  have hlt := h.lt
  have hle := h.le
  have heq := h.eq
  by_cases hk : v'.freeClust = 0xFFFFFFFF
  · have hsame : v'.noteFreed = v' := if_neg (not_not_intro hk)
    rw [hsame]
    exact ⟨by omega, fun hne => absurd hk hne, fun _ hne => absurd hk hne⟩
  · have hnext : v'.noteFreed.freeClust = v.freeClust + 1 := by
      rw [Volume.noteFreed, if_pos hk]
      exact congrArg (· + 1) hfree
    rw [hfree] at hk
    refine ⟨by omega, fun _ => ?_, fun he _ => ?_⟩
    · rw [hlinks, hmore, hnext]
      have := hle hk
      omega
    · rw [hlinks, hmore, hnext, heq he hk]

theorem Tally.noteTaken (h : Tally g exact v) (hh : v'.hints = v.hints)
    (hless : g.freeCount (g.links v') + 1 = g.freeCount (g.links v)) (n : Nat) :
    Tally g exact (v'.noteTaken n) := by
  have hfree : v'.freeClust = v.freeClust := congrArg (fun p => p.2.2) hh
  have hlinks := links_of_window (g := g) (noteTaken_toWindow v' n)
  have hlt := h.lt
  have hle := h.le
  have heq := h.eq
  by_cases hk : v'.freeClust = 0xFFFFFFFF
  · have hsame : (v'.noteTaken n).freeClust = 0xFFFFFFFF := by
      rw [Volume.noteTaken, if_neg (not_not_intro hk)]
      exact hk
    exact ⟨by omega, fun hne => absurd hsame hne, fun _ hne => absurd hsame hne⟩
  · have hnext : (v'.noteTaken n).freeClust = dwordSub v.freeClust 1 := by
      rw [Volume.noteTaken, if_pos hk]
      exact congrArg (dwordSub · 1) hfree
    rw [hfree] at hk
    have hone := hle hk
    have hsub : dwordSub v.freeClust 1 = v.freeClust - 1 := by
      unfold dwordSub
      omega
    refine ⟨by omega, fun _ => ?_, fun he _ => ?_⟩
    · rw [hlinks, hnext, hsub]
      omega
    · have := heq he hk
      rw [hlinks, hnext, hsub]
      omega

theorem freeCount_relink {t : Nat → Link Nat} {x : Link Nat} (hx : x ≠ .free)
    (h : t c ≠ .free) : g.freeCount (Function.update t c x) = g.freeCount t :=
  congrArg Finset.card (freeCells_relink g.clusters hx h)

theorem freeCount_taken {clst : Nat} (hfree : g.links v n = .free)
    (hend : clst = 0 ∨ g.links v clst = .last) :
    g.freeCount (taken (g.links v) clst n) + 1 = g.freeCount (g.links v) := by
  have hcl := (Geometry.links_eq_free_iff.mp hfree).1
  have hmark := Geometry.freeCount_take (x := .last) (by simp) hcl hfree
  unfold taken
  split
  · exact hmark
  · next hzero =>
      have hlast := hend.resolve_left hzero
      have hne : clst ≠ n := by
        rintro rfl
        cases hlast.symm.trans hfree
      have hused : Function.update (g.links v) n .last clst ≠ .free := by
        rw [Function.update_of_ne hne, hlast]
        simp
      rw [freeCount_relink (by simp) hused]
      exact hmark

theorem tally_created {clst : Nat} {out : Nat × Volume} (h : Created g v clst out)
    (ht : Tally g exact v) (hw : Whole g v) (he : exact → v.disk.Reliable) :
    Tally g exact out.2 := by
  cases h with
  | @took n v' hfree hkept hhints hlinks hend =>
      refine ht.noteTaken hhints ?_ n
      rw [hlinks]
      exact freeCount_taken hfree hend
  | followed hnext hshown => exact ht.of_links hshown.links hshown.hints
  | full hshown hused => exact ht.of_links hshown.links hshown.hints
  | inconsistent hshown => exact ht.of_links hshown.links hshown.hints
  | failed hkept hout =>
      obtain ⟨n, hfree, -, hwhole⟩ := hout.marked
      refine ht.of_fewer ?_ hout.hints fun hex => hout.unreliable (he hex)
      have hcl := (Geometry.links_eq_free_iff.mp hfree).1
      have hmark := Geometry.freeCount_take (x := .last) (by simp) hcl hfree
      obtain h | h := hwhole hw
      · rw [h]
      · rw [h]
        omega
  | unread hshown hbad => exact ht.of_links hshown.links hshown.hints

theorem tally_removeLoop {fuel : Nat} {out : FResult × Volume} (hv : g.Coherent v)
    (hc : 2 ≤ c) (ht : Tally g exact v) (hw : Whole g v)
    (hout : removeLoop g fuel c v = some out) : Tally g exact out.2 := by
  induction fuel generalizing c v with
  | zero => cases hout
  | succ fuel ih =>
      by_cases hend : g.nFatent ≤ c
      · rw [removeLoop, if_pos hend] at hout
        cases hout
        exact ht
      have hcl : g.IsCluster c := ⟨hc, by omega⟩
      obtain ⟨v', hs, -, h⟩ | ⟨v', hs, -, h⟩ | ⟨v', hk, hh, -, -, hwhole, h⟩ |
        ⟨v', hk, hh, hnext, hl, h⟩ := removeLoop_succ hv hcl fuel
      · cases hout.symm.trans h
        exact ht.of_links hs.links hs.hints
      · cases hout.symm.trans h
        exact ht.of_links hs.links hs.hints
      · cases hout.symm.trans h
        exact ht.of_links (hwhole hw) hh
      · have hused : g.links v c ≠ .free := by
          obtain hn | hn := hnext <;> rw [hn] <;> simp
        have hmore : g.freeCount (g.links v') = g.freeCount (g.links v) + 1 := by
          rw [hl, Geometry.freeCount_free hcl hused]
        have hkept := kept_of_window hk (noteFreed_toWindow v')
        have hlow : 2 ≤ g.entries v c := by
          obtain hn | hn := hnext
          · have := (Geometry.links_eq_last_iff.mp hn).2
            have := g.someCluster
            omega
          · exact (Geometry.links_eq_next_iff.mp hn).2.1.1
        exact ih hkept.coherent hlow (ht.noteFreed hh hmore) (hw.after hkept.after)
          (h.symm.trans hout)

theorem tally_removeChain {out : FResult × Volume} (hv : g.Coherent v)
    (ht : Tally g exact v) (hw : Whole g v) (hout : removeChain g v c = some out) :
    Tally g exact out.2 := by
  unfold removeChain at hout
  split at hout
  · cases hout
    exact ht
  · next hrange => exact tally_removeLoop hv (by omega) ht hw hout

theorem tally_cut {out : FResult × Volume} (hv : g.Coherent v) (hcl : g.IsCluster c)
    (hused : g.links v c ≠ .free) (ht : Tally g exact v) (hw : Whole g v)
    (hout : cutChain g v c = some out) : Tally g exact out.2 := by
  obtain ⟨w, res, -, hh, hwhole, h⟩ | ⟨w, hk, hh, -, hl, h⟩ := cutChain_cases hv hcl
  · cases hout.symm.trans h
    exact ht.of_links (hwhole hw) hh
  · have hfree : w.freeClust = v.freeClust := congrArg (fun p => p.2.2) hh
    have hcount : g.freeCount (g.links w) = g.freeCount (g.links v) := by
      rw [hl, freeCount_relink (by simp) hused]
    have htw : Tally g exact w := by
      refine ⟨by rw [hfree]; exact ht.lt, ?_, ?_⟩
      · rw [hfree, hcount]; exact ht.le
      · rw [hfree, hcount]; exact ht.eq
    exact tally_removeChain hk.coherent htw (hw.after hk.after) (h.symm.trans hout)

theorem chainStep_tally {s s' : Volume × (ι → List Nat)} (hstep : ChainStep g s s')
    (hv : g.Coherent s.1) (hw : Whole g s.1) (he : exact → s.1.disk.Reliable)
    (ha : Apart (g.links s.1) s.2) (ht : Tally g exact s.1) : Tally g exact s'.1 := by
  cases hstep with
  | @visit v chains s hs =>
      obtain ⟨-, -, hh, hview⟩ := moveWindow_home hv hs
      exact ht.of_links (links_of_view hview) hh
  | @look v chains c =>
      have hs := getFat_shown hv c
      exact ht.of_links hs.links hs.hints
  | @create v chains i hnone => exact tally_created (createChain_created hv 0) ht hw he
  | @stretch v chains i c hc => exact tally_created (createChain_created hv c) ht hw he
  | @remove v chains i c l hc res v' hout => exact tally_removeChain hv ht hw hout
  | @cut v chains i l c r hc res v' hout =>
      have hmem : c ∈ chains i := by
        rw [hc]
        exact List.mem_append_right l List.mem_cons_self
      exact tally_cut hv (isCluster_of_linked (ha.linked i) hmem)
        ((ha.linked i).not_free hmem) ht hw hout

/-- Over any run a known count that is no lower than the free clusters there are stays so,
and if it is exact and no transfer fails it stays exact. -/
theorem freeClust_over_run {s s' : Volume × (ι → List Nat)}
    (hrun : Relation.ReflTransGen (ChainStep g) s s') (hv : g.Coherent s.1) (hw : Whole g s.1)
    (ha : Apart (g.links s.1) s.2) (hlt : s.1.freeClust < 2 ^ 32)
    (hcount : s.1.freeClust ≠ 0xFFFFFFFF → g.freeCount (g.links s.1) ≤ s.1.freeClust) :
    s'.1.freeClust ≠ 0xFFFFFFFF →
      g.freeCount (g.links s'.1) ≤ s'.1.freeClust ∧
        (s.1.disk.Reliable →
          (s.1.freeClust ≠ 0xFFFFFFFF → g.freeCount (g.links s.1) = s.1.freeClust) →
          g.freeCount (g.links s'.1) = s'.1.freeClust) := by
  generalize hexact : (s.1.disk.Reliable ∧
    (s.1.freeClust ≠ 0xFFFFFFFF → g.freeCount (g.links s.1) = s.1.freeClust)) = exact
  have hstart : Tally g exact s.1 := ⟨hlt, hcount, fun he => (hexact ▸ he).2⟩
  have hreliable : exact → s.1.disk.Reliable := fun he => (hexact ▸ he).1
  have hall : g.Coherent s'.1 ∧ Whole g s'.1 ∧ Apart (g.links s'.1) s'.2 ∧
      s.1.disk.After s'.1.disk ∧ Tally g exact s'.1 := by
    clear hcount hlt hexact
    induction hrun with
    | refl => exact ⟨hv, hw, ha, Drive.After.refl _, hstart⟩
    | tail _ hstep ih =>
        obtain ⟨hv', hw', ha', hafter, ht'⟩ := ih
        obtain ⟨hv'', hafter', ha''⟩ := chainStep_keeps hstep hv' hw' ha'
        exact ⟨hv'', hw'.after hafter', ha'', hafter.trans hafter',
          chainStep_tally hstep hv' hw' (fun he => (hreliable he).after hafter) ha' ht'⟩
  intro hk
  exact ⟨hall.2.2.2.2.le hk, fun hr heq => hall.2.2.2.2.eq (hexact ▸ ⟨hr, heq⟩) hk⟩

/-- A known count is right after a cluster was taken. -/
theorem freeClust_on_blank :
    let v : Volume := { mounted blank with freeClust := 8 }
    (createChain floppy v 0).2.freeClust = 7 ∧
      floppy.freeCount (floppy.links (createChain floppy v 0).2) = 7 := by
  intro v
  have hstep : ChainStep floppy (v, fun _ : Unit => []) _ := .create () rfl
  have hcount : floppy.freeCount (floppy.links v) = 8 := by decide
  have hfree : (createChain floppy v 0).2.freeClust = 7 := by decide +kernel
  have hknown : (createChain floppy v 0).2.freeClust ≠ 0xFFFFFFFF := by
    rw [hfree]
    decide
  have h := freeClust_over_run (.single hstep) (floppy.mounted_coherent blank) (floppy_whole _)
    (.empty _) (by decide) (fun _ => Nat.le_of_eq hcount) hknown
  exact ⟨hfree, (h.2 blank_reliable fun _ => hcount).trans hfree⟩

end Fat
end ImuFirmware
