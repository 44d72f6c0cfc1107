import Tortoise.Ramfs.File
import Tortoise.Ramfs.Mount

/-!
# Files and their frames

A file in frames looks like a file with its pages in hand (`Node.view`), as long as its frames
are its own (`Owns`).  Every operation on the frames then does what the operation on pages does,
leaves the frames the file's own, and touches no other frame in use (`Apart`).
-/

namespace Tortoise.RamFs

open Function List

open Kernel (Mm freeFrame takeFrame frameAlloc frameFree fpa)

variable {mm : Mm} {i pa : Nat} {z : Node}

/-! ## Frames -/

/-- The frame at `pa` is in use, by one holder. -/
def Held (mm : Mm) (pa : Nat) : Prop :=
  ∃ i < mm.nframes, pa = fpa i ∧ mm.used i = true ∧ mm.fref i = 1

/-- How many frames are free. -/
def free (mm : Mm) : Nat := ((Finset.range mm.nframes).filter fun i => mm.used i = false).card

theorem fpa_ne_zero (i : Nat) : fpa i ≠ 0 := by
  unfold fpa Kernel.lowmem
  omega

theorem fpa_div (i : Nat) : fpa i / page = 1024 + i := by
  unfold fpa Kernel.lowmem Kernel.page page
  omega

theorem fpa_inj {j : Nat} (h : fpa i = fpa j) : i = j := by
  unfold fpa Kernel.lowmem Kernel.page at h
  omega

theorem Held.ne_zero (h : Held mm pa) : pa ≠ 0 := by
  obtain ⟨i, -, rfl, -⟩ := h
  exact fpa_ne_zero i

/-- Different frames in use are different pages of memory. -/
theorem Held.div_inj {mm' : Mm} {pb : Nat} (ha : Held mm pa) (hb : Held mm' pb)
    (h : pa / page = pb / page) : pa = pb := by
  obtain ⟨i, -, rfl, -⟩ := ha
  obtain ⟨j, -, rfl, -⟩ := hb
  rw [fpa_div, fpa_div] at h
  rw [show i = j by omega]

/-- `frame_alloc` takes the frame it finds. -/
theorem frameAlloc_eq (mm : Mm) :
    frameAlloc mm = match freeFrame mm with
      | none => .ok none mm
      | some i => .ok (some (fpa i)) (takeFrame i mm) := by
  change (match freeFrame mm with
    | none => pure none
    | some i => do
      modify (takeFrame i)
      pure (some (fpa i)) : Kernel.K (Option Nat)) mm = _
  cases freeFrame mm <;> rfl

theorem freeFrame_some (h : freeFrame mm = some i) : i < mm.nframes ∧ mm.used i = false := by
  unfold freeFrame at h
  have hp := List.find?_some h
  obtain ⟨n, hn, rfl⟩ := mem_map.1 (List.mem_of_find?_eq_some h)
  refine ⟨Nat.mod_lt _ ?_, by simpa using hp⟩
  have := mem_range.1 hn
  omega

theorem freeFrame_none (h : freeFrame mm = none) : free mm = 0 := by
  unfold freeFrame at h
  unfold free
  rw [Finset.card_eq_zero, Finset.filter_eq_empty_iff]
  intro j hj
  have hj := Finset.mem_range.1 hj
  -- the search passes every frame
  have hmem : j ∈ (List.range mm.nframes).map fun n => (mm.fhint + n) % mm.nframes := by
    refine mem_map.2 ⟨(j + mm.nframes - mm.fhint % mm.nframes) % mm.nframes,
      mem_range.2 (Nat.mod_lt _ (by omega)), ?_⟩
    have hh : mm.fhint % mm.nframes < mm.nframes := Nat.mod_lt _ (by omega)
    rw [Nat.add_mod, Nat.mod_mod, ← Nat.add_mod, ← Nat.mod_add_mod,
      show mm.fhint % mm.nframes + (j + mm.nframes - mm.fhint % mm.nframes) = j + mm.nframes by
        omega, Nat.add_mod_right, Nat.mod_eq_of_lt hj]
  have := List.find?_eq_none.1 h j hmem
  simpa using this

theorem free_takeFrame (hi : i < mm.nframes) (hu : mm.used i = false) :
    free (takeFrame i mm) + 1 = free mm := by
  have herase : (Finset.range mm.nframes).filter (fun k => (takeFrame i mm).used k = false) =
      ((Finset.range mm.nframes).filter fun k => mm.used k = false).erase i := by
    ext k
    by_cases hk : k = i <;> simp [takeFrame, hk]
  have hmem : i ∈ (Finset.range mm.nframes).filter fun k => mm.used k = false := by simp [hi, hu]
  unfold free
  rw [show (takeFrame i mm).nframes = mm.nframes from rfl, herase, Finset.card_erase_of_mem hmem]
  have := Finset.card_pos.2 ⟨i, hmem⟩
  omega

/-- What freeing a frame of one holder does. -/
structure Freed (mm mm' : Mm) (pa : Nat) : Prop where
  bytes : mm'.bytes = mm.bytes
  free : free mm' = free mm + 1
  others : ∀ pb, pb ≠ pa → Held mm pb → Held mm' pb

theorem frameFree_spec (h : Held mm pa) :
    ∃ mm', frameFree pa mm = .ok () mm' ∧ Freed mm mm' pa := by
  obtain ⟨i, hi, rfl, hu, hr⟩ := h
  have hnum : Kernel.fnum (fpa i) = i := by
    unfold Kernel.fnum fpa Kernel.page Kernel.lowmem
    omega
  have hok : ¬(fpa i < Kernel.lowmem ∨ mm.nframes ≤ Kernel.fnum (fpa i) ∨
      mm.used (Kernel.fnum (fpa i)) = false) := by
    rw [hnum, hu]
    unfold fpa
    simp
    omega
  set mm' := Kernel.dropFrame i (Kernel.setRef i 0 { mm with freed := fpa i :: mm.freed }) with hmm'
  refine ⟨mm', ?_, rfl, ?_, ?_⟩
  · have hidx : Kernel.fidx (fpa i) { mm with freed := fpa i :: mm.freed } =
        .ok i { mm with freed := fpa i :: mm.freed } := by
      unfold Kernel.fidx
      simp only [Lib.get_bind_apply]
      rw [if_neg hok, hnum]
      rfl
    unfold frameFree
    simp only [Lib.modify_bind_apply]
    rw [Lib.bind_ok hidx]
    simp only [Lib.get_bind_apply, hr]
    rfl
  · have hinsert : (Finset.range mm.nframes).filter (fun k => mm'.used k = false) =
        insert i ((Finset.range mm.nframes).filter fun k => mm.used k = false) := by
      ext k
      by_cases hk : k = i <;> simp [hmm', Kernel.dropFrame, Kernel.setRef, hk, hi]
    have hmem : i ∉ (Finset.range mm.nframes).filter fun k => mm.used k = false := by simp [hu]
    unfold RamFs.free
    rw [show mm'.nframes = mm.nframes from rfl, hinsert, Finset.card_insert_of_notMem hmem]
  · rintro pb hne ⟨j, hj, rfl, hju, hjr⟩
    have hji : j ≠ i := fun h => hne (h ▸ rfl)
    exact ⟨j, hj, rfl, by simp [hmm', Kernel.dropFrame, Kernel.setRef, hji, hju],
      by simp [hmm', Kernel.dropFrame, Kernel.setRef, hji, hjr]⟩

/-! ## A file and its view -/

/-- An entry of a table, with the page it stands for. -/
def entry (mm : Mm) (pa : Nat) : Option Page := if pa = 0 then none else some (mm.bytes (pa / page))

/-- A file with its pages in hand. -/
def Node.view (x : Node) : RNode :=
  ⟨x.used, x.limit, free x.mm, x.size, x.mtime, x.ctime, x.pages.map (entry x.mm)⟩

/-- The frames of a file are in use by no one else, and each is in the table once. -/
structure Owns (x : Node) : Prop where
  held : ∀ pa ∈ x.pages, pa ≠ 0 → Held x.mm pa
  once : ∀ (i j pa : Nat), x.pages[i]? = some pa → x.pages[j]? = some pa → pa ≠ 0 → i = j

/-- The frames of others stay in use, with what is in them, and do not come into the table. -/
def Apart (x x' : Node) : Prop :=
  ∀ pa, Held x.mm pa → pa ∉ x.pages →
    Held x'.mm pa ∧ x'.mm.bytes (pa / page) = x.mm.bytes (pa / page) ∧ pa ∉ x'.pages

theorem Apart.refl (x : Node) : Apart x x := fun _ h hn => ⟨h, rfl, hn⟩

theorem Apart.trans {x y : Node} (h : Apart x y) (h' : Apart y z) : Apart x z := by
  intro pa hp hn
  obtain ⟨h1, h2, h3⟩ := h pa hp hn
  obtain ⟨h4, h5, h6⟩ := h' pa h1 h3
  exact ⟨h4, h5.trans h2, h6⟩

/-- A table whose entries are entries of the old one in their places. -/
theorem Owns.sub {x : Node} (ho : Owns x)
    (hat : ∀ (i pa : Nat), z.pages[i]? = some pa → pa ≠ 0 →
      x.pages[i]? = some pa ∧ (Held x.mm pa → Held z.mm pa))
    (hother : ∀ pa, Held x.mm pa → pa ∉ x.pages →
      Held z.mm pa ∧ z.mm.bytes (pa / page) = x.mm.bytes (pa / page)) : Owns z ∧ Apart x z := by
  refine ⟨⟨fun pa h h0 => ?_, fun i j pa hi hj h0 =>
    ho.once i j pa (hat i pa hi h0).1 (hat j pa hj h0).1 h0⟩, fun pa hp hn =>
    ⟨(hother pa hp hn).1, (hother pa hp hn).2, fun h => ?_⟩⟩
  · obtain ⟨i, hi⟩ := mem_iff_getElem?.1 h
    obtain ⟨hx, hz⟩ := hat i pa hi h0
    exact hz (ho.held pa (mem_of_getElem? hx) h0)
  · obtain ⟨i, hi⟩ := mem_iff_getElem?.1 h
    exact hn (mem_of_getElem? (hat i pa hi hp.ne_zero).1)

variable {x y : Node} {pg o keep len off n fuel done : Nat} {src : List Byte}

@[simp] theorem entry_zero (mm : Mm) : entry mm 0 = none := rfl

theorem entry_ne_zero (h : pa ≠ 0) : entry mm pa = some (mm.bytes (pa / page)) :=
  if_neg h

theorem entry_congr {mm' : Mm} (h : pa ≠ 0 → mm'.bytes (pa / page) = mm.bytes (pa / page)) :
    entry mm' pa = entry mm pa := by
  unfold entry
  split_ifs with h0
  · rfl
  · rw [h h0]

theorem view_getElem? (x : Node) (pg : Nat) : x.view.pages[pg]? = x.pages[pg]?.map (entry x.mm) :=
  List.getElem?_map

/-! ## The loop of a write -/

/-- Writing page `pg` of a file changes that entry of its view, and nothing that belongs to
others. -/
theorem setPage_spec (ho : Owns x) (hpg : x.pages[pg]? = some pa) (h0 : pa ≠ 0) (p : Page)
    (hz : z = { x with mm := setPage pa p x.mm }) :
    Owns z ∧ Apart x z ∧ z.view = { x.view with pages := x.view.pages.set pg (some p) } := by
  subst hz
  have hmem := mem_of_getElem? hpg
  have hpa := ho.held pa hmem h0
  refine ⟨⟨ho.held, ho.once⟩, ?_, ?_⟩
  · intro pb hb hn
    refine ⟨hb, ?_, hn⟩
    refine update_of_ne (fun h => hn ?_) _ _
    rw [hb.div_inj hpa h]
    exact hmem
  · have hlist : x.pages.map (entry (setPage pa p x.mm)) =
        (x.pages.map (entry x.mm)).set pg (some p) := by
      apply ext_getElem?
      intro j
      rw [List.getElem?_set, List.getElem?_map, List.getElem?_map, length_map]
      by_cases hj : pg = j
      · subst hj
        rw [if_pos rfl, if_pos (List.getElem?_eq_some_iff.1 hpg).1, hpg, Option.map_some,
          entry_ne_zero h0]
        exact congrArg some (congrArg some (update_self ..))
      · rw [if_neg hj]
        cases hb : x.pages[j]? with
        | none => rfl
        | some pb =>
          refine congrArg some (entry_congr fun hb0 => update_of_ne (fun h => hj ?_) _ _)
          have heq := (ho.held pb (mem_of_getElem? hb) hb0).div_inj hpa h
          exact ho.once pg j pa hpg (heq ▸ hb) h0
    unfold Node.view
    simp only [hlist]
    rfl

theorem getElem?_set_cases {α : Type} {l : List α} {a b : α} {j : Nat}
    (h : (l.set i a)[j]? = some b) : (j = i ∧ a = b) ∨ (j ≠ i ∧ l[j]? = some b) := by
  rw [List.getElem?_set] at h
  split_ifs at h with hij hlt
  · exact .inl ⟨hij.symm, Option.some.inj h⟩
  · exact .inr ⟨fun h => hij h.symm, h⟩

/-- A missing page gets a frame of its own. -/
theorem takeFrame_spec (ho : Owns x) (hi : freeFrame x.mm = some i) (pg : Nat) (hz : z = { x with
      used := x.used + 1
      mm := takeFrame i x.mm
      pages := x.pages.set pg (fpa i) }) :
    Owns z ∧ Apart x z ∧ z.view = { x.view with
      used := x.used + 1
      frames := free x.mm - 1
      pages := x.view.pages.set pg (some (x.mm.bytes (fpa i / page))) } := by
  subst hz
  obtain ⟨hlt, hu⟩ := freeFrame_some hi
  have hfresh : ∀ pb, Held x.mm pb → fpa i ≠ pb := by
    rintro pb ⟨j, -, rfl, hj, -⟩ h
    rw [← fpa_inj h, hu] at hj
    cases hj
  have hkeep : ∀ pb, Held x.mm pb → Held (takeFrame i x.mm) pb := by
    intro pb hb
    have hne := hfresh pb hb
    obtain ⟨j, hj, rfl, hju, hjr⟩ := hb
    have hji : j ≠ i := fun h => hne (h ▸ rfl)
    exact ⟨j, hj, rfl, by simp [takeFrame, hji, hju], by simp [takeFrame, hji, hjr]⟩
  have hold : ∀ (j pb : Nat), x.pages[j]? = some pb → pb ≠ 0 → fpa i ≠ pb := fun j pb h h0 =>
    hfresh pb (ho.held pb (mem_of_getElem? h) h0)
  refine ⟨⟨?_, ?_⟩, ?_, ?_⟩
  · intro pb hb hb0
    obtain ⟨j, hj⟩ := mem_iff_getElem?.1 hb
    rcases getElem?_set_cases hj with ⟨-, rfl⟩ | ⟨-, hj⟩
    · exact ⟨i, hlt, rfl, by simp [takeFrame], by simp [takeFrame]⟩
    · exact hkeep pb (ho.held pb (mem_of_getElem? hj) hb0)
  · intro j k pb hj hk hb0
    rcases getElem?_set_cases hj with ⟨hjp, hpb⟩ | ⟨-, hj'⟩
    · rcases getElem?_set_cases hk with ⟨hkp, -⟩ | ⟨-, hk'⟩
      · rw [hjp, hkp]
      · exact absurd hpb (hold k pb hk' hb0)
    · rcases getElem?_set_cases hk with ⟨-, hpb⟩ | ⟨-, hk'⟩
      · exact absurd hpb (hold j pb hj' hb0)
      · exact ho.once j k pb hj' hk' hb0
  · intro pb hb hn
    refine ⟨hkeep pb hb, rfl, fun hmem => ?_⟩
    obtain ⟨j, hj⟩ := mem_iff_getElem?.1 hmem
    rcases getElem?_set_cases hj with ⟨-, rfl⟩ | ⟨-, hj⟩
    · exact hfresh _ hb rfl
    · exact hn (mem_of_getElem? hj)
  · have hlist : (x.pages.set pg (fpa i)).map (entry (takeFrame i x.mm)) =
        (x.pages.map (entry x.mm)).set pg (some (x.mm.bytes (fpa i / page))) := by
      rw [map_set, entry_ne_zero (fpa_ne_zero i)]
      rfl
    have hfree : free (takeFrame i x.mm) = free x.mm - 1 := by
      have := free_takeFrame hlt hu
      omega
    unfold Node.view
    simp only [hlist, hfree]

theorem getD_eq_of_getElem? {l : List Nat} {a : Nat} (h : l[i]? = some a) : l.getD i 0 = a := by
  rw [getD_eq_getElem?_getD, h]
  rfl

theorem needPage_none (hin : pg < x.pages.length) (h : x.needPage pg = none) :
    x.view.pages[pg]? = some none ∧ (x.view.limit ≤ x.view.used ∨ x.view.frames = 0) := by
  have hpg : x.pages[pg]? = some x.pages[pg] := List.getElem?_eq_getElem hin
  unfold Node.needPage at h
  rw [getD_eq_of_getElem? hpg] at h
  split_ifs at h with h0 hl
  · rw [not_not] at h0
    rw [view_getElem?, hpg, h0]
    exact ⟨rfl, .inl hl⟩
  · rw [not_not] at h0
    rw [view_getElem?, hpg, h0]
    rw [frameAlloc_eq] at h
    cases hi : freeFrame x.mm with
    | none => exact ⟨rfl, .inr (freeFrame_none hi)⟩
    | some i =>
      rw [hi] at h
      cases h

/-- One turn of the loop of a write does to the view what it does on pages. -/
theorem turn_spec (ho : Owns x) (hin : pg < x.pages.length) (h : x.needPage pg = some y)
    (o : Nat) (src : List Byte) :
    Owns (y.copyPage pg o src) ∧ Apart x (y.copyPage pg o src) ∧
      ((∃ p, x.view.pages[pg]? = some (some p) ∧ (y.copyPage pg o src).view =
          { x.view with pages := x.view.pages.set pg (some (copyIn p o src)) }) ∨
        (x.view.pages[pg]? = some none ∧ ¬(x.view.limit ≤ x.view.used ∨ x.view.frames = 0) ∧
          (y.copyPage pg o src).view =
            { x.view with
              used := x.view.used + 1
              frames := x.view.frames - 1
              pages := x.view.pages.set pg (some (copyIn (fun _ => 0) o src)) })) := by
  have hpg : x.pages[pg]? = some x.pages[pg] := List.getElem?_eq_getElem hin
  unfold Node.needPage at h
  rw [getD_eq_of_getElem? hpg] at h
  split_ifs at h with h0 hl
  · -- the page is there
    cases h
    have hcopy : x.copyPage pg o src = { x with
        mm := setPage x.pages[pg] (copyIn (x.mm.bytes (x.pages[pg] / page)) o src) x.mm } := by
      unfold Node.copyPage
      rw [getD_eq_of_getElem? hpg]
    obtain ⟨h1, h2, h3⟩ := setPage_spec ho hpg h0 _ hcopy
    refine ⟨h1, h2, .inl ⟨_, ?_, h3⟩⟩
    rw [view_getElem?, hpg, Option.map_some, entry_ne_zero h0]
  · -- a new page
    rw [not_not] at h0
    rw [h0] at hpg
    obtain ⟨i, hi⟩ : ∃ i, freeFrame x.mm = some i := by
      rw [frameAlloc_eq] at h
      cases hi : freeFrame x.mm with
      | none =>
        rw [hi] at h
        cases h
      | some i => exact ⟨i, rfl⟩
    rw [frameAlloc_eq, hi] at h
    cases h
    obtain ⟨h1, h2, h4⟩ := takeFrame_spec ho hi pg rfl
    have h3 : (x.pages.set pg (fpa i))[pg]? = some (fpa i) := List.getElem?_set_self hin
    -- the frame is cleared and then written
    have hcopy : Node.copyPage { x with
        used := x.used + 1
        mm := setPage (fpa i) (fun _ => 0) (takeFrame i x.mm)
        pages := x.pages.set pg (fpa i) } pg o src = { x with
        used := x.used + 1
        mm := setPage (fpa i) (copyIn (fun _ => 0) o src) (takeFrame i x.mm)
        pages := x.pages.set pg (fpa i) } := by
      simp only [Node.copyPage, getD_eq_of_getElem? h3, setPage, update_self, update_idem]
    obtain ⟨h5, h6, h7⟩ := setPage_spec h1 h3 (fpa_ne_zero i) _ hcopy
    refine ⟨h5, h2.trans h6, .inr ⟨?_, ?_, ?_⟩⟩
    · rw [view_getElem?, hpg]
      rfl
    · rintro (hle | hz0)
      · exact hl hle
      · obtain ⟨hlt, hu⟩ := freeFrame_some hi
        have := free_takeFrame hlt hu
        change free x.mm = 0 at hz0
        omega
    · rw [h7, h4]
      simp only [set_set]
      rfl

theorem Owns.stay {α : Type} {a : α} (ho : Owns x) :
    ∀ r, some (x, a) = some r → Owns r.1 ∧ Apart x r.1 := by
  rintro _ ⟨⟩
  exact ⟨ho, Apart.refl x⟩

/-- **The loop of a write** on frames is the loop on pages. -/
theorem writeLoop_sim (ho : Owns x) (fuel : Nat) (src : List Byte) (off done : Nat) :
    (x.writeLoop fuel src off done).map (fun r => (r.1.view, r.2)) =
        writeLoop fuel x.view src off done ∧
      ∀ r, x.writeLoop fuel src off done = some r → Owns r.1 ∧ Apart x r.1 := by
  induction fuel generalizing x src off done with
  | zero =>
    exact ⟨rfl, ho.stay⟩
  | succ fuel ih =>
    rw [Node.writeLoop, writeLoop]
    by_cases hz : src.length = 0
    · rw [if_pos hz, if_pos hz]
      exact ⟨rfl, ho.stay⟩
    rw [if_neg hz, if_neg hz]
    by_cases hin : x.pages.length ≤ off / page
    · rw [if_pos hin]
      have hnone : x.view.pages[off / page]? = none := by
        rw [view_getElem?, List.getElem?_eq_none_iff.2 hin]
        rfl
      simp only [hnone]
      exact ⟨rfl, fun r h => by cases h⟩
    rw [if_neg hin]
    simp only
    cases hn : x.needPage (off / page) with
    | none =>
      obtain ⟨h1, h2⟩ := needPage_none (by omega) hn
      rw [h1]
      simp only [if_pos h2]
      exact ⟨rfl, ho.stay⟩
    | some y =>
      generalize min (page - off % page) src.length = k
      obtain ⟨h1, h2, h3⟩ := turn_spec ho (by omega) hn (off % page) (src.take k)
      obtain ⟨h4, h5⟩ := ih h1 (src.drop k) (u32 (off + k)) (done + k)
      refine ⟨?_, fun r h => ⟨(h5 r h).1, h2.trans (h5 r h).2⟩⟩
      rcases h3 with ⟨p, hp, hv⟩ | ⟨hp, hav, hv⟩
      · rw [hp]
        exact h4.trans (by rw [hv])
      · rw [hp]
        simp only [if_neg hav]
        exact h4.trans (by rw [hv])

/-! ## Whole operations -/

theorem growPages_sim (ho : Owns x) (kmalloc : Nat → Bool) (np : Nat) :
    (x.growPages kmalloc np).map Node.view = growPages kmalloc x.view np ∧
      ∀ y, x.growPages kmalloc np = some y → Owns y ∧ Apart x y := by
  unfold Node.growPages growPages
  have hlen : x.view.pages.length = x.pages.length := length_map _
  rw [hlen]
  by_cases h1 : np ≤ x.pages.length
  · rw [if_pos h1, if_pos h1]
    refine ⟨rfl, fun y h => ?_⟩
    cases h
    exact ⟨ho, Apart.refl x⟩
  rw [if_neg h1, if_neg h1]
  by_cases hk : kmalloc (capLoop 32 8 np * 4) = true
  · simp only [hk, if_true]
    refine ⟨?_, fun y h => ?_⟩
    · simp [Node.view]
    · cases h
      refine ho.sub (fun i pa h h0 => ⟨?_, id⟩) fun pa hp _ => ⟨hp, rfl⟩
      rw [List.getElem?_append] at h
      split_ifs at h with hi
      · exact h
      · exact absurd (eq_of_mem_replicate (mem_of_getElem? h)) h0
  · simp only [hk]
    exact ⟨rfl, fun y h => nomatch h⟩

/-- **A write** on frames is the write on pages. -/
theorem rWrite_sim (ho : Owns x) (kmalloc : Nat → Bool) (now : Nat) (src : List Byte) (off : Nat) :
    (x.rWrite kmalloc now src off).map (fun r => (r.1.view, r.2)) =
        rWrite kmalloc now x.view src off ∧
      ∀ r, x.rWrite kmalloc now src off = some r → Owns r.1 ∧ Apart x r.1 := by
  unfold Node.rWrite rWrite
  simp only
  split_ifs with hu
  · exact ⟨rfl, ho.stay⟩
  · obtain ⟨hg, hgo⟩ := growPages_sim ho kmalloc (u32 (off + src.length + page - 1) / page)
    rw [← hg]
    cases hy : x.growPages kmalloc (u32 (off + src.length + page - 1) / page) with
    | none =>
      exact ⟨rfl, ho.stay⟩
    | some y =>
      obtain ⟨h1, h2⟩ := hgo y hy
      obtain ⟨h3, h4⟩ := writeLoop_sim h1 src.length src off 0
      simp only [Option.map_some, Option.map_map]
      rw [← h3, Option.map_map]
      refine ⟨?_, fun r h => ?_⟩
      · rfl
      · obtain ⟨⟨z, k⟩, hz, rfl⟩ := Option.map_eq_some_iff.1 h
        obtain ⟨h5, h6⟩ := h4 _ hz
        exact ⟨⟨h5.held, h5.once⟩, h2.trans h6⟩

theorem readLoop_sim (x : Node) (fuel off n : Nat) :
    x.readLoop fuel off n = readLoop x.view fuel off n := by
  induction fuel generalizing off n with
  | zero => rfl
  | succ fuel ih =>
    rw [Node.readLoop, readLoop]
    split_ifs with hz
    · rfl
    · simp only [ih, view_getElem?]
      congr 1
      cases hp : x.pages[off / page]? with
      | none =>
        have := List.getElem?_eq_none_iff.1 hp
        rw [if_neg (by omega)]
        rfl
      | some pa =>
        have hlt := (List.getElem?_eq_some_iff.1 hp).1
        rw [getD_eq_of_getElem? hp]
        by_cases h0 : pa = 0
        · rw [if_neg (by simp [h0]), h0]
          rfl
        · rw [if_pos ⟨hlt, h0⟩, Option.map_some, entry_ne_zero h0]
          rfl

/-- **A read** of frames is the read of pages. -/
theorem rRead_sim (x : Node) (off n : Nat) : x.rRead off n = rRead x.view off n := by
  unfold Node.rRead rRead
  simp only [readLoop_sim]
  rfl

/-- The loop of `free_data` gives back the frames of the entries, each once. -/
theorem freeLoop_spec (ps : List Nat) (used : Nat) (mm : Mm)
    (hheld : ∀ pa ∈ ps, pa ≠ 0 → Held mm pa) (honce : ps.Pairwise fun a b => a ≠ 0 → a ≠ b)
    (hle : ps.countP (· ≠ 0) ≤ used) (hlt : used < 2 ^ 32) :
    ∃ mm', freeLoop ps used mm = some (used - ps.countP (· ≠ 0), mm') ∧ mm'.bytes = mm.bytes ∧
      free mm' = free mm + ps.countP (· ≠ 0) ∧ ∀ pb, pb ∉ ps → Held mm pb → Held mm' pb := by
  induction ps generalizing used mm with
  | nil => exact ⟨mm, rfl, rfl, rfl, fun _ _ h => h⟩
  | cons pa ps ih =>
    have hps : ∀ pb ∈ ps, pb ≠ 0 → Held mm pb := fun pb h => hheld pb (mem_cons_of_mem _ h)
    rw [pairwise_cons] at honce
    by_cases h0 : pa = 0
    · subst h0
      rw [countP_cons_of_neg (by simp)] at hle ⊢
      obtain ⟨mm', h1, h2, h3, h4⟩ := ih used mm hps honce.2 hle hlt
      refine ⟨mm', ?_, h2, h3, fun pb hn => h4 pb fun h => hn (mem_cons_of_mem _ h)⟩
      rw [freeLoop, if_pos rfl, h1]
    · rw [countP_cons_of_pos (by simp [h0])] at hle ⊢
      obtain ⟨mm₁, hf, hfr⟩ := frameFree_spec (hheld pa mem_cons_self h0)
      have hsub : Kernel.sub32 used 1 = used - 1 := by
        unfold Kernel.sub32 Kernel.u32
        omega
      obtain ⟨mm', h1, h2, h3, h4⟩ := ih (used - 1) mm₁
        (fun pb hb hb0 => hfr.others pb (fun h => honce.1 pb hb h0 h.symm) (hps pb hb hb0))
        honce.2 (by omega) (by omega)
      refine ⟨mm', ?_, h2.trans hfr.bytes, ?_, fun pb hn hb => ?_⟩
      · rw [freeLoop, if_neg h0, hf]
        have hcount : used - 1 - ps.countP (· ≠ 0) = used - (ps.countP (· ≠ 0) + 1) := by omega
        simp only [hsub, h1, hcount]
      · rw [h3, hfr.free]
        omega
      · exact h4 pb (fun h => hn (mem_cons_of_mem _ h))
          (hfr.others pb (fun h => hn (h ▸ mem_cons_self)) hb)

theorem countP_entry (mm : Mm) (ps : List Nat) :
    (ps.map (entry mm)).countP Option.isSome = ps.countP (· ≠ 0) := by
  rw [countP_map]
  refine countP_congr fun pa _ => ?_
  by_cases h : pa = 0
  · simp [h]
  · simp [h, entry_ne_zero h]

theorem present_view (x : Node) : present x.view = x.pages.countP (· ≠ 0) :=
  countP_entry x.mm x.pages

/-- **`free_data`** on frames is `free_data` on pages. -/
theorem freeData_sim (ho : Owns x) (hle : present x.view ≤ x.used) (hlt : x.used < 2 ^ 32)
    (keep : Nat) :
    ∃ y, x.freeData keep = some y ∧ y.view = freeData x.view keep ∧ Owns y ∧ Apart x y := by
  rw [present_view] at hle
  have hdrop : (x.pages.drop keep).countP (· ≠ 0) ≤ x.pages.countP (· ≠ 0) :=
    List.Sublist.countP_le (drop_sublist keep x.pages)
  have honce : (x.pages.drop keep).Pairwise fun a b => a ≠ 0 → a ≠ b := by
    rw [pairwise_iff_getElem]
    intro i j hi hj hij h0 heq
    rw [getElem_drop] at h0
    rw [getElem_drop, getElem_drop] at heq
    rw [length_drop] at hi hj
    have := ho.once (keep + i) (keep + j) _ (List.getElem?_eq_getElem (by omega))
      ((List.getElem?_eq_getElem (by omega)).trans (congrArg some heq.symm)) h0
    omega
  obtain ⟨mm', h1, h2, h3, h4⟩ := freeLoop_spec _ _ _
    (fun pa h => ho.held pa (mem_of_mem_drop h)) honce (by omega) hlt
  refine ⟨_, by rw [Node.freeData, h1]; rfl, ?_, ho.sub (fun i pa h h0 => ?_) fun pa hp hn =>
    ⟨h4 pa (fun h => hn (mem_of_mem_drop h)) hp, congrFun h2 _⟩⟩
  · have hsame : ∀ pa, entry mm' pa = entry x.mm pa := fun pa => entry_congr fun _ => by rw [h2]
    unfold Node.view freeData
    simp only [h3, map_append, map_take, map_map, ← map_drop, countP_entry]
    congr 2
    exact congrArg (List.take keep) (map_congr_left fun pa _ => hsame pa)
  · rw [List.getElem?_append] at h
    split_ifs at h with hi
    · rw [length_take] at hi
      rw [List.getElem?_take_of_lt (by omega)] at h
      -- what is kept is in the first part and not in the second
      refine ⟨h, h4 pa fun hd => ?_⟩
      obtain ⟨j, hj⟩ := mem_iff_getElem?.1 hd
      rw [List.getElem?_drop] at hj
      have := ho.once i (keep + j) pa h hj h0
      omega
    · obtain ⟨-, -, rfl⟩ := mem_map.1 (mem_of_getElem? h)
      exact absurd rfl h0

theorem clearTail_sim (ho : Owns x) (keep len : Nat) :
    (x.clearTail keep len).view = clearTail x.view keep len ∧ Owns (x.clearTail keep len) ∧
      Apart x (x.clearTail keep len) := by
  unfold Node.clearTail clearTail
  simp only
  by_cases htail : len % page ≠ 0 ∧ 0 < keep
  · rw [if_pos htail, view_getElem?]
    cases hp : x.pages[keep - 1]? with
    | none =>
      have := List.getElem?_eq_none_iff.1 hp
      rw [if_neg (by omega)]
      exact ⟨rfl, ho, Apart.refl x⟩
    | some pa =>
      rw [getD_eq_of_getElem? hp]
      by_cases h0 : pa = 0
      · rw [if_neg (by simp [h0]), h0]
        exact ⟨rfl, ho, Apart.refl x⟩
      · rw [if_pos ⟨htail.1, htail.2, (List.getElem?_eq_some_iff.1 hp).1, h0⟩, Option.map_some,
          entry_ne_zero h0]
        obtain ⟨h1, h2, h3⟩ := setPage_spec ho hp h0
          (fun j => if len % page ≤ j ∧ j < page then 0 else x.mm.bytes (pa / page) j) rfl
        exact ⟨h3, h1, h2⟩
  · rw [if_neg htail, if_neg (by tauto)]
    exact ⟨rfl, ho, Apart.refl x⟩

/-- **`r_truncate`** on frames is `r_truncate` on pages. -/
theorem rTruncate_sim (ho : Owns x) (hle : present x.view ≤ x.used) (hlt : x.used < 2 ^ 32)
    (now len : Nat) :
    ∃ y, x.rTruncate now len = some y ∧ y.view = rTruncate now x.view len ∧ Owns y ∧
      Apart x y := by
  rw [rTruncate_eq]
  unfold Node.rTruncate
  simp only
  by_cases hsz : len < x.size
  · obtain ⟨y, h1, h2, h3, h4⟩ := freeData_sim ho hle hlt (u32 (len + page - 1) / page)
    obtain ⟨h5, h6, h7⟩ := clearTail_sim h3 (u32 (len + page - 1) / page) len
    rw [if_pos hsz, if_pos (show len < x.view.size from hsz), h1, ← h2, ← h5]
    exact ⟨_, rfl, rfl, ⟨h6.held, h6.once⟩, h4.trans h7⟩
  · rw [if_neg hsz, if_neg (show ¬len < x.view.size from hsz)]
    exact ⟨_, rfl, rfl, ⟨ho.held, ho.once⟩, Apart.refl x⟩

end Tortoise.RamFs
