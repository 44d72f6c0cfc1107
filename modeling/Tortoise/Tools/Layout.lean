import Tortoise.Lib.Bits
import Tortoise.Tools.Link

/-!
# Where the linker puts things

What the layout and the choice of library objects compute, in numbers that do not wrap.

* `starts` and `stop`: the sections of the objects one after the other, each from the
  next multiple of four on;
* `addrOf`: the address of a section of an object;
* `layout_eq`: the linker's layout has these addresses, modulo `2 ^ 32`;
* `selectLib_closed`: what a linked object needs and some object defines, a linked
  object defines.
-/

namespace Tortoise.Tools

open Function Lib List
open BitVec hiding add_sub_cancel

/-- The next multiple of `a`. -/
def alignUp (n a : Nat) : Nat := (n + a - 1) / a * a

/-- The beginnings of section `s` of the objects, from `pos` on. -/
def starts (s : Nat) : Nat → List Obj → List Nat
  | _, [] => []
  | pos, o :: os => alignUp pos 4 :: starts s (alignUp pos 4 + (o.size s).toNat) os

/-- The end of the last one. -/
def stop (s : Nat) : Nat → List Obj → Nat
  | pos, [] => pos
  | pos, o :: os => stop s (alignUp pos 4 + (o.size s).toNat) os

section

variable {a n : Nat}

theorem le_alignUp (ha : 0 < a) : n ≤ alignUp n a := by
  have := Nat.div_add_mod (n + a - 1) a
  have := Nat.mod_lt (n + a - 1) ha
  unfold alignUp
  rw [Nat.mul_comm]
  omega

theorem dvd_alignUp : a ∣ alignUp n a := Dvd.intro_left _ rfl

theorem align_ofNat {k : Nat} (hk : k < 32) (n : Nat) :
    align (BitVec.ofNat 32 n) (BitVec.ofNat 32 (2 ^ k)) = BitVec.ofNat 32 (alignUp n (2 ^ k)) := by
  have hp : 2 ^ k < 2 ^ 32 := Nat.pow_lt_pow_right (by decide) hk
  have hpos : 0 < 2 ^ k := Nat.two_pow_pos k
  have hsub : BitVec.ofNat 32 (2 ^ k) - 1 = BitVec.ofNat 32 (2 ^ k - 1) := by
    generalize 2 ^ k = m at *
    bv_omega
  have hadd : BitVec.ofNat 32 n + BitVec.ofNat 32 (2 ^ k) - 1 = BitVec.ofNat 32 (n + 2 ^ k - 1) := by
    generalize 2 ^ k = m at *
    bv_omega
  apply eq_of_toNat_eq
  unfold align alignUp
  rw [hadd, hsub, toNat_and, toNat_not, toNat_ofNat, toNat_ofNat,
    toNat_ofNat, Nat.mod_eq_of_lt (show 2 ^ k - 1 < 2 ^ 32 by omega),
    show 2 ^ 32 - 1 - (2 ^ k - 1) = 2 ^ 32 - 2 ^ k by omega,
    nat_and_high _ k 32 (Nat.mod_lt _ (by decide)) hk.le]
  -- `2 ^ k` divides `2 ^ 32`
  obtain ⟨c, hc⟩ : 2 ^ k ∣ 2 ^ 32 := Nat.pow_dvd_pow 2 hk.le
  rw [hc, Nat.mod_mul_right_div_self, Nat.mul_comm (_ % c), Nat.mul_comm (_ / _), Nat.mul_mod_mul_left]

end

/-! ## One section after the other -/

section

variable {s pos i j : Nat} {objs : List Obj}

theorem length_starts : (starts s pos objs).length = objs.length := by
  induction objs generalizing pos with
  | nil => rfl
  | cons o os ih => simp [starts, ih]

theorem le_stop : pos ≤ stop s pos objs := by
  induction objs generalizing pos with
  | nil => exact le_rfl
  | cons o os ih =>
    have h1 := le_alignUp (a := 4) (n := pos) (by decide)
    have h2 : alignUp pos 4 + (o.size s).toNat ≤ stop s (alignUp pos 4 + (o.size s).toNat) os := ih
    unfold stop
    omega

/-- Every section begins behind `pos` at a multiple of four and ends before `stop`. -/
theorem starts_bounds {a : Nat} {o : Obj} (ha : (starts s pos objs)[i]? = some a)
    (ho : objs[i]? = some o) : pos ≤ a ∧ a + (o.size s).toNat ≤ stop s pos objs ∧ 4 ∣ a := by
  induction objs generalizing pos i with
  | nil => simp at ho
  | cons o' os ih =>
    have h1 := le_alignUp (a := 4) (n := pos) (by decide)
    cases i with
    | zero =>
      simp only [starts, List.getElem?_cons_zero, Option.some.injEq] at ha ho
      subst ha ho
      exact ⟨h1, le_stop, dvd_alignUp⟩
    | succ i =>
      simp only [starts, List.getElem?_cons_succ] at ha ho
      obtain ⟨h2, h3, h4⟩ := ih ha ho
      exact ⟨by omega, h3, h4⟩

theorem starts_lt {a b : Nat} {o : Obj} (hij : i < j) (ha : (starts s pos objs)[i]? = some a)
    (hb : (starts s pos objs)[j]? = some b) (ho : objs[i]? = some o) :
    a + (o.size s).toNat ≤ b := by
  induction objs generalizing pos i j with
  | nil => simp at ho
  | cons o' os ih =>
    obtain ⟨j, rfl⟩ : ∃ j', j = j' + 1 := ⟨j - 1, by omega⟩
    simp only [starts, List.getElem?_cons_succ] at hb
    cases i with
    | zero =>
      simp only [starts, List.getElem?_cons_zero, Option.some.injEq] at ha ho
      subst ha ho
      obtain ⟨o₂, ho₂⟩ : ∃ o₂, os[j]? = some o₂ := by
        have := (List.getElem?_eq_some_iff.1 hb).1
        rw [length_starts] at this
        exact ⟨_, List.getElem?_eq_getElem this⟩
      exact (starts_bounds hb ho₂).1
    | succ i =>
      simp only [starts, List.getElem?_cons_succ] at ha ho
      exact ih (by omega) ha hb ho

/-- The object with section `s` at `a`. -/
def Placed.rebase (s : Nat) (o : Placed) (a : Nat) : Placed :=
  ⟨o.obj, update o.base s (BitVec.ofNat 32 a)⟩

theorem place_ofNat (pos : Nat) (l : List Placed) : place s (BitVec.ofNat 32 pos) l =
    (List.zipWith (Placed.rebase s) l (starts s pos (l.map Placed.obj)),
      BitVec.ofNat 32 (stop s pos (l.map Placed.obj))) := by
  induction l generalizing pos with
  | nil => rfl
  | cons o l ih =>
    have h4 : align (BitVec.ofNat 32 pos) 4 = BitVec.ofNat 32 (alignUp pos 4) :=
      align_ofNat (k := 2) (by decide) pos
    have hadd : BitVec.ofNat 32 (alignUp pos 4) + o.obj.size s =
        BitVec.ofNat 32 (alignUp pos 4 + (o.obj.size s).toNat) := by
      rw [ofNat_add, ofNat_toNat, setWidth_eq]
    unfold place
    simp only [h4, hadd, ih]
    rfl

end

/-! ## All sections -/

section

variable (T : Nat) (objs : List Obj)

def textEnd : Nat := stop 1 T objs

def dataStart : Nat := alignUp (textEnd T objs) 4096

def dataEnd : Nat := stop 2 (dataStart T objs) objs

def bssStart : Nat := alignUp (dataEnd T objs) 4

def bssEnd : Nat := stop 3 (bssStart T objs) objs

/-- Where the sections of one kind begin. -/
def secStart : Nat → Nat
  | 1 => T
  | 2 => dataStart T objs
  | _ => bssStart T objs

/-- The address of section `s` of object `i`. -/
def addrOf (i s : Nat) : Nat := (starts s (secStart T objs s) objs).getD i 0

/-- The end of the image. -/
def imageEnd : Nat := if dataEnd T objs = dataStart T objs then textEnd T objs else dataEnd T objs

/-- Object `o` as the `i`-th one, with its addresses. -/
def placedAt (i : Nat) (o : Obj) : Placed :=
  ⟨o, fun s => if 1 ≤ s ∧ s ≤ 3 then BitVec.ofNat 32 (addrOf T objs i s) else 0⟩

variable {T objs} {i j s s' : Nat} {o o' : Obj}

theorem starts_addrOf (ho : objs[i]? = some o) :
    (starts s (secStart T objs s) objs)[i]? = some (addrOf T objs i s) := by
  have hi : i < (starts s (secStart T objs s) objs).length := by
    rw [length_starts]
    exact (List.getElem?_eq_some_iff.1 ho).1
  rw [addrOf, getD_eq_getElem _ _ hi, List.getElem?_eq_getElem hi]

theorem addrOf_lt (hij : i < j) (ho : objs[i]? = some o) (ho' : objs[j]? = some o') :
    addrOf T objs i s + (o.size s).toNat ≤ addrOf T objs j s :=
  starts_lt hij (starts_addrOf ho) (starts_addrOf ho') ho

theorem four_dvd_addrOf (ho : objs[i]? = some o) : 4 ∣ addrOf T objs i s :=
  (starts_bounds (starts_addrOf ho) ho).2.2

theorem text_bounds (ho : objs[i]? = some o) :
    T ≤ addrOf T objs i 1 ∧ addrOf T objs i 1 + o.text.length ≤ textEnd T objs := by
  have h := starts_bounds (starts_addrOf (T := T) (s := 1) ho) ho
  have hs : (o.size 1).toNat = o.text.length := Nat.mod_eq_of_lt o.text_lt
  rw [hs] at h
  exact ⟨h.1, h.2.1⟩

theorem data_bounds (ho : objs[i]? = some o) :
    dataStart T objs ≤ addrOf T objs i 2 ∧
      addrOf T objs i 2 + o.data.length ≤ dataEnd T objs := by
  have h := starts_bounds (starts_addrOf (T := T) (s := 2) ho) ho
  have hs : (o.size 2).toNat = o.data.length := Nat.mod_eq_of_lt o.data_lt
  rw [hs] at h
  exact ⟨h.1, h.2.1⟩

theorem textEnd_le_dataStart : textEnd T objs ≤ dataStart T objs := le_alignUp (by decide)

theorem le_textEnd : T ≤ textEnd T objs := le_stop

theorem dataStart_le_dataEnd : dataStart T objs ≤ dataEnd T objs := le_stop

end

/-- The objects behind one layout loop. -/
theorem map_obj_zipWith (s : Nat) (l : List Placed) (as : List Nat) (h : as.length = l.length) :
    (List.zipWith (Placed.rebase s) l as).map Placed.obj = l.map Placed.obj := by
  apply ext_getElem
  · simp [h]
  · intro i h₁ h₂
    simp [Placed.rebase]

/-- The three layout loops, one after the other. -/
theorem layout_eq (T : Word) (objs : List Obj) :
    (layout T objs).objs = objs.mapIdx (placedAt T.toNat objs) ∧
      (layout T objs).textAddr + (layout T objs).textSize =
        BitVec.ofNat 32 (textEnd T.toNat objs) ∧
      (layout T objs).dataAddr = BitVec.ofNat 32 (dataStart T.toNat objs) ∧
      (layout T objs).dataAddr + (layout T objs).dataSize =
        BitVec.ofNat 32 (dataEnd T.toNat objs) ∧
      (layout T objs).bssAddr = BitVec.ofNat 32 (bssStart T.toNat objs) ∧
      (layout T objs).bssAddr + (layout T objs).bssSize = BitVec.ofNat 32 (bssEnd T.toNat objs) := by
  obtain ⟨n, hn⟩ : ∃ n, n = T.toNat := ⟨_, rfl⟩
  have hT : T = BitVec.ofNat 32 n := by rw [hn, ofNat_toNat, setWidth_eq]
  rw [← hn]
  have h1 : align (BitVec.ofNat 32 (textEnd n objs)) 4096 = BitVec.ofNat 32 (dataStart n objs) :=
    align_ofNat (k := 12) (by decide) _
  have h2 : align (BitVec.ofNat 32 (dataEnd n objs)) 4 = BitVec.ofNat 32 (bssStart n objs) :=
    align_ofNat (k := 2) (by decide) _
  have hobj : (objs.map fun o => (⟨o, fun _ => 0⟩ : Placed)).map Placed.obj = objs := by
    rw [map_map]
    exact map_id' objs
  have ht := place_ofNat (s := 1) n (objs.map fun o => (⟨o, fun _ => 0⟩ : Placed))
  rw [hobj] at ht
  have hd := place_ofNat (s := 2) (dataStart n objs)
    (place 1 (BitVec.ofNat 32 n) (objs.map fun o => (⟨o, fun _ => 0⟩ : Placed))).1
  rw [ht, map_obj_zipWith _ _ _ (by simp [length_starts]), hobj] at hd
  have hb := place_ofNat (s := 3) (bssStart n objs)
    (place 2 (BitVec.ofNat 32 (dataStart n objs)) (place 1 (BitVec.ofNat 32 n)
      (objs.map fun o => (⟨o, fun _ => 0⟩ : Placed))).1).1
  rw [ht, hd, map_obj_zipWith _ _ _ (by simp [length_starts]),
    map_obj_zipWith _ _ _ (by simp [length_starts]), hobj] at hb
  unfold layout
  simp only [hT, ht]
  rw [show BitVec.ofNat 32 (stop 1 n objs) = BitVec.ofNat 32 (textEnd n objs) from rfl, h1, hd]
  simp only
  rw [show BitVec.ofNat 32 (stop 2 (dataStart n objs) objs) = BitVec.ofNat 32 (dataEnd n objs)
    from rfl, h2, hb]
  refine ⟨?_, ?_, trivial, ?_, rfl, ?_⟩
  · apply ext_getElem
    · simp [length_starts]
    · intro i h₁ h₂
      have hi : i < objs.length := by simpa using h₂
      have hstart : ∀ s (hs : i < (starts s (secStart n objs s) objs).length),
          (starts s (secStart n objs s) objs)[i] = addrOf n objs i s :=
        fun s hs => (getD_eq_getElem _ _ hs).symm
      simp only [getElem_zipWith, getElem_map, getElem_mapIdx, placedAt,
        Placed.rebase]
      congr 1
      funext s
      have h1 := hstart 1 (by rw [length_starts]; exact hi)
      have h2 := hstart 2 (by rw [length_starts]; exact hi)
      have h3 := hstart 3 (by rw [length_starts]; exact hi)
      simp only [secStart] at h1 h2 h3
      rw [h1, h2, h3]
      match s with
      | 0 => rfl
      | 1 => rfl
      | 2 => rfl
      | 3 => rfl
      | s + 4 =>
        rw [if_neg (by omega), update_of_ne (by omega), update_of_ne (by omega),
          update_of_ne (by omega)]
  · rw [add_sub_cancel]
  · rw [add_sub_cancel]
  · rw [add_sub_cancel]
    rfl

/-! ## Libraries -/

/-- The objects, whether they are kept or not. -/
abbrev Kept.objs (ks : Kept) : List Obj := ks.map (·.1)

/-- How many objects are not kept. -/
def Kept.left (ks : Kept) : Nat := ks.countP (!·.2)

/-- A kept object defines the name. -/
def Kept.has (ks : Kept) (name : List Byte) : Bool := ks.any fun k => k.2 && defines k.1 name

section

variable {ks ks' : Kept} {name : List Byte}

theorem pull_some (h : pull name ks = some ks') :
    Kept.objs ks' = Kept.objs ks ∧ Kept.left ks' + 1 = Kept.left ks := by
  induction ks generalizing ks' with
  | nil => cases h
  | cons k ks ih =>
    obtain ⟨o, keep⟩ := k
    unfold pull at h
    by_cases hc : (!keep && defines o name) = true
    · rw [if_pos hc] at h
      cases h
      simp only [Bool.and_eq_true, Bool.not_eq_true'] at hc
      simp [Kept.left, hc.1]
    · rw [if_neg hc] at h
      obtain ⟨ks₁, h₁, rfl⟩ := Option.map_eq_some_iff.1 h
      obtain ⟨h2, h3⟩ := ih h₁
      unfold Kept.left at h3 ⊢
      refine ⟨by simp [h2], ?_⟩
      rw [countP_cons, countP_cons]
      omega

theorem pull_none (h : pull name ks = none) : ∀ k ∈ ks, k.2 = false → defines k.1 name = false := by
  induction ks with
  | nil => exact nofun
  | cons k ks ih =>
    obtain ⟨o, keep⟩ := k
    unfold pull at h
    by_cases hc : (!keep && defines o name) = true
    · rw [if_pos hc] at h
      cases h
    · rw [if_neg hc, Option.map_eq_none_iff] at h
      intro k hk hfalse
      rcases mem_cons.1 hk with rfl | hk
      · simp only at hfalse ⊢
        simpa [hfalse] using hc
      · exact ih h k hk hfalse

/-- What one step of a round does: nothing, because the name is there or nobody has it, or
one more object is kept. -/
theorem supply_cases (ks : Kept) (b : Bool) (name : List Byte) :
    supply (ks, b) name = (ks, b) ∧
        (Kept.has ks name = true ∨ ∀ k ∈ ks, k.2 = false → defines k.1 name = false) ∨
      ∃ ks', supply (ks, b) name = (ks', true) ∧ Kept.objs ks' = Kept.objs ks ∧
        Kept.left ks' < Kept.left ks := by
  unfold supply
  by_cases hh : (ks.any fun k => k.2 && defines k.1 name) = true
  · rw [if_pos hh]
    exact Or.inl ⟨rfl, Or.inl hh⟩
  · rw [if_neg hh]
    cases hp : pull name ks with
    | none => exact Or.inl ⟨rfl, Or.inr (pull_none hp)⟩
    | some ks' =>
      obtain ⟨h1, h2⟩ := pull_some hp
      exact Or.inr ⟨ks', rfl, h1, by omega⟩

/-- A fold of steps that leave everything as it is, for a reason, or mark an object. -/
theorem foldl_cases {α : Type} {f : Kept × Bool → α → Kept × Bool} {P : Kept → α → Prop}
    (hf : ∀ ks b a, f (ks, b) a = (ks, b) ∧ P ks a ∨
      ∃ ks', f (ks, b) a = (ks', true) ∧ Kept.objs ks' = Kept.objs ks ∧
        Kept.left ks' < Kept.left ks) (as : List α) : ∀ (ks : Kept) (b : Bool),
    as.foldl f (ks, b) = (ks, b) ∧ (∀ a ∈ as, P ks a) ∨
      ∃ ks', as.foldl f (ks, b) = (ks', true) ∧ Kept.objs ks' = Kept.objs ks ∧
        Kept.left ks' < Kept.left ks := by
  induction as with
  | nil => exact fun ks b => Or.inl ⟨rfl, nofun⟩
  | cons a as ih =>
    intro ks b
    rw [foldl_cons]
    rcases hf ks b a with ⟨he, ha⟩ | ⟨ks₁, he, hobjs, hleft⟩
    · rw [he]
      rcases ih ks b with ⟨he', hall⟩ | h
      · exact Or.inl ⟨he', forall_mem_cons.2 ⟨ha, hall⟩⟩
      · exact Or.inr h
    · rw [he]
      rcases ih ks₁ true with ⟨he', -⟩ | ⟨ks₂, he', hobjs', hleft'⟩
      · exact Or.inr ⟨ks₁, he', hobjs, hleft⟩
      · exact Or.inr ⟨ks₂, he', hobjs'.trans hobjs, hleft'.trans hleft⟩

/-- The needs of object `i` are served. -/
def Kept.Served (ks : Kept) (i : Nat) : Prop := ∀ o, ks[i]? = some (o, true) → ∀ n ∈ needs o,
  Kept.has ks n = true ∨ ∀ k ∈ ks, k.2 = false → defines k.1 n = false

theorem supplyFor_cases (ks : Kept) (b : Bool) (i : Nat) :
    supplyFor (ks, b) i = (ks, b) ∧ Kept.Served ks i ∨
      ∃ ks', supplyFor (ks, b) i = (ks', true) ∧ Kept.objs ks' = Kept.objs ks ∧
        Kept.left ks' < Kept.left ks := by
  unfold supplyFor
  cases hi : ks[i]? with
  | none => exact Or.inl ⟨rfl, fun o ho => by rw [hi] at ho; cases ho⟩
  | some k =>
    obtain ⟨o, keep⟩ := k
    cases keep with
    | false => exact Or.inl ⟨rfl, fun o ho => by rw [hi] at ho; cases ho⟩
    | true =>
      rcases foldl_cases supply_cases (needs o) ks b with ⟨he, hall⟩ | h
      · refine Or.inl ⟨he, ?_⟩
        intro o' ho'
        rw [hi] at ho'
        cases ho'
        exact hall
      · exact Or.inr h

/-- The loop ends with a round that changes nothing: every kept object is served. -/
theorem selectLoop_served (fuel : Nat) : ∀ ks : Kept, Kept.left ks < fuel →
    Kept.objs (selectLoop fuel ks) = Kept.objs ks ∧
      ∀ i < ks.length, Kept.Served (selectLoop fuel ks) i := by
  induction fuel with
  | zero => exact fun _ => nofun
  | succ fuel ih =>
    intro ks h
    unfold selectLoop selectRound
    rcases foldl_cases supplyFor_cases (List.range ks.length) ks false with
      ⟨he, hall⟩ | ⟨ks', he, ho, hl⟩
    · rw [he]
      refine ⟨rfl, ?_⟩
      intro i hi
      exact hall i (mem_range.2 hi)
    · rw [he]
      obtain ⟨h1, h2⟩ := ih ks' (by omega)
      have hlen : ks'.length = ks.length := by simpa using congrArg List.length ho
      exact ⟨h1.trans ho, fun i hi => h2 i (by omega)⟩

theorem left_le_length (ks : Kept) : Kept.left ks ≤ ks.length := countP_le_length

end

section

variable (objs : List Obj)

/-- What `select_lib` ends with. -/
def selected : Kept := selectLoop (objs.length + 1) (objs.map fun o => (o, !o.lib))

theorem selected_served : Kept.objs (selected objs) = objs ∧
    ∀ i < objs.length, Kept.Served (selected objs) i := by
  have h := selectLoop_served (objs.length + 1) (objs.map fun o => (o, !o.lib)) (by
    have := left_le_length (objs.map fun o => (o, !o.lib))
    rw [length_map] at this
    omega)
  have hobjs : Kept.objs (objs.map fun o => (o, !o.lib)) = objs := by
    unfold Kept.objs
    rw [map_map]
    exact map_id' objs
  rw [length_map, hobjs] at h
  exact h

/-- The linked objects are among those that were read, in the same order. -/
theorem selectLib_sublist : (selectLib objs).Sublist objs := by
  have h : (((selected objs).filter (·.2)).map (·.1)).Sublist ((selected objs).map (·.1)) :=
    List.Sublist.map _ filter_sublist
  rwa [show (selected objs).map (·.1) = objs from (selected_served objs).1] at h

variable {objs} {o o' : Obj} {name : List Byte}

/-- **What a linked object needs** and some object defines, a linked object defines. -/
theorem selectLib_closed (ho : o ∈ selectLib objs) (hn : name ∈ needs o) (ho' : o' ∈ objs)
    (hd : defines o' name = true) : ∃ o'' ∈ selectLib objs, defines o'' name = true := by
  obtain ⟨hobjs, hserved⟩ := selected_served objs
  obtain ⟨⟨o₁, keep⟩, hk, rfl⟩ := mem_map.1 ho
  rw [mem_filter] at hk
  obtain ⟨hk, hkeep⟩ := hk
  simp only at hkeep
  subst hkeep
  obtain ⟨i, hi, hget⟩ := mem_iff_getElem.1 hk
  have hlen : (selected objs).length = objs.length := by simpa using congrArg List.length hobjs
  have hserve := hserved i (by rw [← hlen]; exact hi) o₁ (by
    rw [← hget]
    exact List.getElem?_eq_getElem hi) name hn
  rcases hserve with hhas | hnone
  · obtain ⟨k, hk', hkd⟩ := any_eq_true.1 hhas
    rw [Bool.and_eq_true] at hkd
    exact ⟨k.1, mem_map.2 ⟨k, mem_filter.2 ⟨hk', hkd.1⟩, rfl⟩, hkd.2⟩
  · -- the object that defines the name is kept already
    rw [← hobjs] at ho'
    obtain ⟨k, hk', rfl⟩ := mem_map.1 ho'
    cases hkeep : k.2 with
    | true => exact ⟨k.1, mem_map.2 ⟨k, mem_filter.2 ⟨hk', hkeep⟩, rfl⟩, hd⟩
    | false => rw [hnone k hk' hkeep] at hd; cases hd

end

end Tortoise.Tools
