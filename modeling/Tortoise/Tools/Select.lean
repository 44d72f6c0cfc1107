import Tortoise.Tools.Layout

/-!
# Which objects of a library are linked

`select_lib` marks objects while it goes over them, until a round marks nothing.

* `Closed objs S`: `S` has every object that is not of a library and, with an object, every
  object that defines a symbol its relocations use.
* A mark is set only for an object every closed set has (`Kept.Sound`), which every step of a
  round keeps.
* When `lib_clashes` is silent no library object shares a definition with another object, so the
  first object found is the only one, and what ends up marked is closed.

Together: what is linked is the least closed set (`selectLib_least`), whatever the order.
-/

namespace Tortoise.Tools

open List

/-! ## Closed sets -/

/-- A set of objects from which nothing can be missing. -/
structure Closed (objs : List Obj) (S : Set Obj) : Prop where
  own : ∀ o ∈ objs, o.lib = false → o ∈ S
  used : ∀ o ∈ S, ∀ r ∈ o.rels, ∀ s, o.syms[r.sym.toNat]? = some s → s.sec = 0 →
    ∀ o' ∈ objs, defines o' (o.name s) = true → o' ∈ S

theorem mem_needs {o : Obj} {name : List Byte} : name ∈ needs o ↔
    ∃ r ∈ o.rels, ∃ s, o.syms[r.sym.toNat]? = some s ∧ s.sec = 0 ∧ o.name s = name := by
  simp only [needs, Obj.uses, mem_map, mem_filter, Bool.and_eq_true, decide_eq_true_eq, any_eq_true,
    Prod.exists, mem_zipIdx_iff_getElem?]
  constructor
  · rintro ⟨s, j, ⟨hs, hsec, r, hr, rfl⟩, hname⟩
    exact ⟨r, hr, s, hs, hsec, hname⟩
  · rintro ⟨r, hr, s, hs, hsec, hname⟩
    exact ⟨s, _, ⟨hs, hsec, r, hr, rfl⟩, hname⟩

/-- Where the code looks at `needs`, a closed set has what is needed. -/
theorem Closed.needed {objs : List Obj} {S : Set Obj} (h : Closed objs S) {o o' : Obj}
    {name : List Byte} (ho : o ∈ S) (hn : name ∈ needs o) (ho' : o' ∈ objs)
    (hd : defines o' name = true) : o' ∈ S := by
  obtain ⟨r, hr, s, hs, hsec, rfl⟩ := mem_needs.1 hn
  exact h.used o ho r hr s hs hsec o' ho' hd

theorem closed_congr {objs objs' : List Obj} (h : ∀ o, o ∈ objs ↔ o ∈ objs') (S : Set Obj) :
    Closed objs S ↔ Closed objs' S := by
  constructor
  · intro hS
    exact ⟨fun o ho => hS.own o ((h o).2 ho),
      fun o ho r hr s hs hsec o' ho' => hS.used o ho r hr s hs hsec o' ((h o').2 ho')⟩
  · intro hS
    exact ⟨fun o ho => hS.own o ((h o).1 ho),
      fun o ho r hr s hs hsec o' ho' => hS.used o ho r hr s hs hsec o' ((h o').1 ho')⟩

/-! ## Clashes -/

/-- One of the two is of a library, and both define some symbol. -/
def Clash (o o' : Obj) : Prop :=
  (o.lib = true ∨ o'.lib = true) ∧ ∃ name, defines o name = true ∧ defines o' name = true

theorem Clash.symm {o o' : Obj} (h : Clash o o') : Clash o' o := by
  obtain ⟨hlib, name, hd, hd'⟩ := h
  exact ⟨hlib.symm, name, hd', hd⟩

/-- `lib_clashes` is silent when no two objects clash. -/
theorem libClashes_eq_nil_iff (objs : List Obj) :
    libClashes objs = [] ↔ objs.Pairwise fun o o' => ¬Clash o o' := by
  induction objs with
  | nil => simp [libClashes]
  | cons o os ih =>
    rw [libClashes, append_eq_nil_iff, ih, pairwise_cons]
    refine and_congr_left fun _ => ?_
    simp only [flatMap_eq_nil_iff, map_eq_nil_iff, filter_eq_nil_iff,
      mem_filter, Bool.and_eq_true, Bool.or_eq_true, not_and]
    constructor
    · rintro h o' ho' ⟨hlib, name, hd, hd'⟩
      obtain ⟨s, hs, hname⟩ := any_eq_true.1 hd
      obtain ⟨hglobal, hname⟩ := Bool.and_eq_true_iff.1 hname
      rw [← of_decide_eq_true hname] at hd'
      exact h s ⟨hs, hglobal⟩ o' ho' hlib hd'
    · rintro h s ⟨hs, hglobal⟩ o' ho' hlib hd'
      refine h o' ho' ⟨hlib, o.name s, ?_, hd'⟩
      exact any_eq_true.2 ⟨s, hs, by simp [hglobal]⟩

theorem libClashes_perm {objs objs' : List Obj} (h : objs.Perm objs') :
    libClashes objs = [] ↔ libClashes objs' = [] := by
  rw [libClashes_eq_nil_iff, libClashes_eq_nil_iff]
  exact h.pairwise_iff fun hc => fun hc' => hc hc'.symm

/-! ## Marks -/

/-- Every mark is justified: an object of the program has one, and an object that has one is in
every closed set and defines something if it is of a library. -/
structure Kept.Sound (objs : List Obj) (ks : Kept) : Prop where
  own : ∀ k ∈ ks, k.1.lib = false → k.2 = true
  least : ∀ k ∈ ks, k.2 = true → ∀ S, Closed objs S → k.1 ∈ S
  defines : ∀ k ∈ ks, k.2 = true → k.1.lib = true → ∃ name, defines k.1 name = true

section

variable {objs : List Obj} {ks ks' : Kept} {name : List Byte}

/-- Pulling an object in sets one mark. -/
theorem pull_split (h : pull name ks = some ks') : ∃ l o r, ks = l ++ (o, false) :: r ∧
    ks' = l ++ (o, true) :: r ∧ defines o name = true := by
  induction ks generalizing ks' with
  | nil => cases h
  | cons k ks ih =>
    obtain ⟨o, keep⟩ := k
    rw [pull] at h
    split_ifs at h with hc
    · cases h
      simp only [Bool.and_eq_true, Bool.not_eq_true'] at hc
      obtain ⟨rfl, hd⟩ := hc
      exact ⟨[], o, ks, rfl, rfl, hd⟩
    · obtain ⟨ks₁, h₁, rfl⟩ := Option.map_eq_some_iff.1 h
      obtain ⟨l, o', r, rfl, rfl, hd⟩ := ih h₁
      exact ⟨(o, keep) :: l, o', r, rfl, rfl, hd⟩

/-- A name is supplied for an object that every closed set has. -/
def Wanted (objs : List Obj) (name : List Byte) : Prop :=
  ∃ o, (∀ S, Closed objs S → o ∈ S) ∧ name ∈ needs o

theorem supply_sound (hobjs : Kept.objs ks = objs) (hks : Kept.Sound objs ks)
    (hname : Wanted objs name) (b : Bool) :
    Kept.objs (supply (ks, b) name).1 = objs ∧ Kept.Sound objs (supply (ks, b) name).1 := by
  unfold supply
  split_ifs with hhas
  · exact ⟨hobjs, hks⟩
  cases hp : pull name ks with
  | none => exact ⟨hobjs, hks⟩
  | some ks' =>
    obtain ⟨l, o, r, rfl, rfl, hd⟩ := pull_split hp
    have ho : o ∈ objs := by simp [← hobjs, Kept.objs]
    -- the marks other than that of `o` are as they were
    have hmem : ∀ k ∈ l ++ (o, true) :: r, k = (o, true) ∨ k ∈ l ++ (o, false) :: r := by
      intro k hk
      simp only [mem_append, mem_cons] at hk ⊢
      tauto
    refine ⟨by rw [← hobjs]; simp [Kept.objs], ?_, ?_, ?_⟩
    · intro k hk hlib
      rcases hmem k hk with rfl | hk
      · rfl
      · exact hks.own k hk hlib
    · intro k hk hkeep S hS
      rcases hmem k hk with rfl | hk
      · obtain ⟨u, hu, hn⟩ := hname
        exact hS.needed (hu S hS) hn ho hd
      · exact hks.least k hk hkeep S hS
    · intro k hk hkeep hlib
      rcases hmem k hk with rfl | hk
      · exact ⟨name, hd⟩
      · exact hks.defines k hk hkeep hlib

theorem supplies_sound {names : List (List Byte)} (hnames : ∀ n ∈ names, Wanted objs n)
    (hobjs : Kept.objs ks = objs) (hks : Kept.Sound objs ks) (b : Bool) :
    Kept.objs (names.foldl supply (ks, b)).1 = objs ∧
      Kept.Sound objs (names.foldl supply (ks, b)).1 :=
  List.foldlRecOn (motive := fun x => Kept.objs x.1 = objs ∧ Kept.Sound objs x.1) names supply
    ⟨hobjs, hks⟩ fun x hx n hn => supply_sound hx.1 hx.2 (hnames n hn) x.2

theorem supplyFor_sound (hobjs : Kept.objs ks = objs) (hks : Kept.Sound objs ks) (b : Bool)
    (i : Nat) :
    Kept.objs (supplyFor (ks, b) i).1 = objs ∧ Kept.Sound objs (supplyFor (ks, b) i).1 := by
  unfold supplyFor
  split
  · next o hi =>
    have hk : (o, true) ∈ ks := mem_of_getElem? hi
    exact supplies_sound (fun n hn => ⟨o, hks.least _ hk rfl, hn⟩) hobjs hks b
  · exact ⟨hobjs, hks⟩

theorem suppliesFor_sound (is : List Nat) (hobjs : Kept.objs ks = objs)
    (hks : Kept.Sound objs ks) : Kept.objs (is.foldl supplyFor (ks, false)).1 = objs ∧
      Kept.Sound objs (is.foldl supplyFor (ks, false)).1 :=
  List.foldlRecOn (motive := fun x => Kept.objs x.1 = objs ∧ Kept.Sound objs x.1) is supplyFor
    ⟨hobjs, hks⟩ fun x hx i _ => supplyFor_sound hx.1 hx.2 x.2 i

theorem selectLoop_sound (fuel : Nat) : ∀ ks : Kept, Kept.objs ks = objs → Kept.Sound objs ks →
    Kept.Sound objs (selectLoop fuel ks) := by
  induction fuel with
  | zero => exact fun ks hobjs hks => hks
  | succ fuel ih =>
    intro ks hobjs hks
    obtain ⟨h₁, h₂⟩ := suppliesFor_sound (List.range ks.length) hobjs hks
    rw [selectLoop]
    show Kept.Sound objs (if (selectRound ks).2 then _ else _)
    split_ifs
    · exact ih _ h₁ h₂
    · exact h₂

theorem selected_sound (objs : List Obj) : Kept.Sound objs (selected objs) := by
  refine selectLoop_sound _ _ (by simp [Kept.objs, Function.comp_def]) ⟨?_, ?_, ?_⟩
  · intro k hk hlib
    obtain ⟨o, -, rfl⟩ := mem_map.1 hk
    simpa using hlib
  · intro k hk hkeep S hS
    obtain ⟨o, ho, rfl⟩ := mem_map.1 hk
    exact hS.own o ho (by simpa using hkeep)
  · intro k hk hkeep hlib
    obtain ⟨o, ho, rfl⟩ := mem_map.1 hk
    rw [show o.lib = true from hlib] at hkeep
    cases hkeep

/-! ## The end of the loop -/

/-- The loop stops by itself: more rounds change nothing. -/
theorem selectLoop_stops (fuel : Nat) : ∀ ks : Kept, Kept.left ks < fuel →
    selectRound (selectLoop fuel ks) = (selectLoop fuel ks, false) ∧
      ∀ more, selectLoop (fuel + more) ks = selectLoop fuel ks := by
  induction fuel with
  | zero => exact fun _ => nofun
  | succ fuel ih =>
    intro ks h
    rcases foldl_cases supplyFor_cases (List.range ks.length) ks false with
      ⟨he, -⟩ | ⟨ks', he, -, hl⟩
    · have hround : selectRound ks = (ks, false) := he
      have hloop : ∀ n, selectLoop (n + 1) ks = ks := by
        intro n
        simp [selectLoop, hround]
      refine ⟨by rw [hloop, hround], ?_⟩
      intro more
      rw [Nat.add_right_comm, hloop, hloop]
    · have hround : selectRound ks = (ks', true) := he
      have hloop : ∀ n, selectLoop (n + 1) ks = selectLoop n ks' := by
        intro n
        simp [selectLoop, hround]
      obtain ⟨h₁, h₂⟩ := ih ks' (by omega)
      refine ⟨by rw [hloop]; exact h₁, ?_⟩
      intro more
      rw [Nat.add_right_comm, hloop, hloop, h₂]

theorem left_start (objs : List Obj) :
    Kept.left (objs.map fun o => (o, !o.lib)) < objs.length + 1 := by
  have := left_le_length (objs.map fun o => (o, !o.lib))
  rw [length_map] at this
  omega

theorem mem_selectLib {o : Obj} : o ∈ selectLib objs ↔ (o, true) ∈ selected objs := by
  rw [selectLib, selected, mem_map]
  constructor
  · rintro ⟨⟨o', keep⟩, hk, rfl⟩
    obtain ⟨hk, hkeep⟩ := mem_filter.1 hk
    cases (show keep = true from hkeep)
    exact hk
  · intro h
    exact ⟨(o, true), mem_filter.2 ⟨h, rfl⟩, rfl⟩

/-! ## The least closed set -/

variable (h : libClashes objs = [])

include h

/-- Without clashes, a library object that is not marked shares no definition with another
object of the list. -/
theorem not_defines {k k' : Obj × Bool} (hk : k ∈ selected objs) (hk' : k' ∈ selected objs)
    (hkeep : k.2 = true) (hkeep' : k'.2 = false) (hlib : k'.1.lib = true)
    (hd : defines k.1 name = true) : defines k'.1 name = false := by
  by_contra hd'
  rw [Bool.not_eq_false] at hd'
  rw [libClashes_eq_nil_iff, ← (selected_served objs).1] at h
  have hpair : (selected objs).Pairwise fun k k' => ¬Clash k.1 k'.1 := pairwise_map.1 h
  have hne : k ≠ k' := by
    rintro rfl
    rw [hkeep] at hkeep'
    cases hkeep'
  have : Std.Symm fun k k' : Obj × Bool => ¬Clash k.1 k'.1 := ⟨fun _ _ hc hc' => hc hc'.symm⟩
  exact hpair.forall hk hk' hne ⟨Or.inr hlib, name, hd, hd'⟩

/-- Without clashes, an object and its mark go together: either all its occurrences are kept or
none is. -/
theorem selected_mark {o : Obj} {keep : Bool} (hk : (o, keep) ∈ selected objs)
    (hsel : o ∈ selectLib objs) : keep = true := by
  rw [mem_selectLib] at hsel
  have hsound := selected_sound objs
  cases hlib : o.lib with
  | false => exact hsound.own _ hk hlib
  | true =>
    by_contra hkeep
    rw [Bool.not_eq_true] at hkeep
    obtain ⟨name, hd⟩ := hsound.defines _ hsel rfl hlib
    rw [not_defines h hsel hk rfl hkeep hlib hd] at hd
    cases hd

theorem selectLib_isClosed : Closed objs {o | o ∈ selectLib objs} := by
  have hobjs := (selected_served objs).1
  have hmark : ∀ o ∈ objs, ∃ keep, (o, keep) ∈ selected objs := by
    intro o ho
    rw [← hobjs] at ho
    obtain ⟨⟨o', keep⟩, hk, rfl⟩ := mem_map.1 ho
    exact ⟨keep, hk⟩
  constructor
  · intro o ho hlib
    obtain ⟨keep, hk⟩ := hmark o ho
    have hkeep : keep = true := (selected_sound objs).own _ hk hlib
    rw [hkeep] at hk
    exact mem_selectLib.2 hk
  · intro o ho r hr s hs hsec o' ho' hd
    have hn : o.name s ∈ needs o := mem_needs.2 ⟨r, hr, s, hs, hsec, rfl⟩
    obtain ⟨keep, hk⟩ := hmark o' ho'
    cases hkeep : keep with
    | true => exact mem_selectLib.2 (hkeep ▸ hk)
    | false =>
      -- some kept object defines the name; as `o'` is of a library, that would clash
      subst hkeep
      obtain ⟨u, hu, hdu⟩ := selectLib_closed ho hn ho' hd
      cases hlib : o'.lib with
      | false => exact absurd ((selected_sound objs).own _ hk hlib) (by simp)
      | true =>
        have := not_defines h (mem_selectLib.1 hu) hk rfl rfl hlib hdu
        rw [hd] at this
        cases this

theorem selectLib_isLeast : IsLeast {S | Closed objs S} {o | o ∈ selectLib objs} := by
  refine ⟨selectLib_isClosed h, ?_⟩
  intro S hS o ho
  exact (selected_sound objs).least _ (mem_selectLib.1 ho) rfl S hS

open Classical in
/-- The linked objects are those of the least set, each where it was. -/
theorem selectLib_eq_filter : selectLib objs = objs.filter (· ∈ selectLib objs) := by
  have hobjs : (selected objs).map (·.1) = objs := (selected_served objs).1
  have hmarks : ∀ k ∈ selected objs, k.2 = decide (k.1 ∈ selectLib objs) := by
    rintro ⟨o, keep⟩ hk
    cases keep with
    | true => exact (decide_eq_true (mem_selectLib.2 hk)).symm
    | false =>
      refine (decide_eq_false fun hsel => ?_).symm
      exact absurd (selected_mark h hk hsel) (by simp)
  calc selectLib objs = ((selected objs).filter (·.2)).map (·.1) := rfl
    _ = ((selected objs).filter fun k => decide (k.1 ∈ selectLib objs)).map (·.1) := by
        rw [filter_congr hmarks]
    _ = ((selected objs).map (·.1)).filter (· ∈ selectLib objs) := by
        rw [filter_map]
        rfl
    _ = objs.filter (· ∈ selectLib objs) := by rw [hobjs]

theorem selectLib_mem_perm {objs' : List Obj} (hperm : objs'.Perm objs) (o : Obj) :
    o ∈ selectLib objs' ↔ o ∈ selectLib objs := by
  have h' := (libClashes_perm hperm).2 h
  have hsets : {S | Closed objs' S} = {S | Closed objs S} :=
    Set.ext fun S => closed_congr (fun o => hperm.mem_iff) S
  have hleast := selectLib_isLeast h'
  rw [hsets] at hleast
  exact Set.ext_iff.1 (hleast.unique (selectLib_isLeast h)) o

theorem selectLib_perm {objs' : List Obj} (hperm : objs'.Perm objs) :
    (selectLib objs').Perm (selectLib objs) := by
  classical
  rw [selectLib_eq_filter h, selectLib_eq_filter ((libClashes_perm hperm).2 h)]
  simp only [selectLib_mem_perm h hperm]
  exact hperm.filter _

end

/-- **Library selection.**  When `lib_clashes` is silent, `select_lib` comes to a round that
changes nothing, and rounds after it would change nothing; the objects it keeps are the least
set closed under what is needed; they stand in the order of the list, and are the same for every
order of the list. -/
theorem selectLib_least {objs : List Obj} (h : libClashes objs = []) :
    (selectRound (selected objs) = (selected objs, false) ∧ ∀ more,
      selectLoop (objs.length + 1 + more) (objs.map fun o => (o, !o.lib)) = selected objs) ∧
    IsLeast {S | Closed objs S} {o | o ∈ selectLib objs} ∧
    (selectLib objs).Sublist objs ∧
    ∀ objs' : List Obj, objs'.Perm objs → (selectLib objs').Perm (selectLib objs) :=
  ⟨selectLoop_stops _ _ (left_start objs), selectLib_isLeast h, selectLib_sublist objs,
    fun _ hperm => selectLib_perm h hperm⟩

theorem nil_lt : ([] : List Byte).length < 2 ^ 32 := by decide

/-- An object without bytes: the string table is `f g h`, with the given symbols, and relocations
that use some of them. -/
def sampleObj (path : String) (lib : Bool) (syms : List OSym) (used : List Word) : Obj where
  path := path
  text := []
  data := []
  bss := 0
  syms := syms
  rels := used.map fun j => ⟨0, 1, 1, j, 0⟩
  str := [102, 0, 103, 0, 104, 0]
  lib := lib
  text_lt := nil_lt
  data_lt := nil_lt

/-- The program uses `f`, whose object uses `g`; the program only declares `h`. -/
def sampleObjs : List Obj :=
  [sampleObj "h.o" true [⟨4, 0, 1, 1⟩] [], sampleObj "g.o" true [⟨2, 0, 1, 1⟩] [0],
    sampleObj "f.o" true [⟨0, 0, 1, 1⟩, ⟨2, 0, 0, 1⟩] [1],
    sampleObj "main.o" false [⟨4, 0, 0, 1⟩, ⟨0, 0, 0, 1⟩] [1]]

theorem selectLib_least_sample :
    (selectLib sampleObjs).map Obj.path = ["g.o", "f.o", "main.o"] ∧
    (selectRound (selected sampleObjs) = (selected sampleObjs, false) ∧ ∀ more,
      selectLoop (sampleObjs.length + 1 + more) (sampleObjs.map fun o => (o, !o.lib)) =
        selected sampleObjs) ∧
    IsLeast {S | Closed sampleObjs S} {o | o ∈ selectLib sampleObjs} ∧
    (selectLib sampleObjs).Sublist sampleObjs ∧
    ∀ objs' : List Obj, objs'.Perm sampleObjs →
      (selectLib objs').Perm (selectLib sampleObjs) :=
  ⟨by decide +kernel, selectLib_least (by decide +kernel)⟩

end Tortoise.Tools
