import Tortoise.Lib.Overwrite
import Tortoise.Ramfs.Model

/-!
# Reading and writing files in memory

* `rRead_spec`: a read returns the bytes of the file between the offset and the size.
* `writeLoop_spec`: the loop of a write either leaves the table of pages (`Escapes`) or stores
  the first `k` bytes and changes nothing else.
* `rWrite_obeys`: when a write does what it reports.
-/

namespace Tortoise.RamFs

open Lib List

/-- Byte `j` of an entry of the table of pages. -/
def pageByte (q : Option (Option Page)) (j : Nat) : Byte :=
  match q with
  | some (some p) => p j
  | _ => 0

/-- Byte `i` of a file, as if it went on with zeros for ever. -/
def byteAt (x : RNode) (i : Nat) : Byte := pageByte x.pages[i / page]? (i % page)

/-- How many pages the file has. -/
def present (x : RNode) : Nat := x.pages.countP Option.isSome

/-- A file as the operations leave it: zeros behind its end, and its pages within the limit,
which is a quarter of the frames. -/
structure Wf (x : RNode) : Prop where
  clean : ∀ i, x.size ≤ i → byteAt x i = 0
  size : x.size < 2 ^ 32
  used : present x ≤ x.used
  limit : x.used ≤ x.limit
  quarter : x.limit ≤ 2 ^ 18

/-- A file as its size and its reads show it. -/
def view (x : RNode) : View Byte := ⟨x.size, fun off n => some (rRead x off n)⟩

variable {x x' : RNode} {off fuel n o done k : Nat} {src : List Byte} {P : List (Option Page)}

/-! ## Reading -/

theorem readPage_eq (q : Option (Option Page)) (o k : Nat) :
    readPage q o k = (List.range' o k).map (pageByte q) := by
  rcases q with _ | _ | p
  · exact ext_getElem (by simp [readPage]) fun i _ _ => by simp [readPage, pageByte]
  · exact ext_getElem (by simp [readPage]) fun i _ _ => by simp [readPage, pageByte]
  · rfl

theorem readLoop_spec (hfuel : n ≤ fuel) (hn : off + n < 2 ^ 32) :
    readLoop x fuel off n = (List.range' off n).map (byteAt x) := by
  induction fuel generalizing off n with
  | zero =>
    rw [show n = 0 by omega]
    rfl
  | succ fuel ih =>
    rw [readLoop]
    by_cases hz : n = 0
    · rw [if_pos hz, hz]
      rfl
    rw [if_neg hz]
    simp only
    set k := min (page - off % page) n with hk
    have hkpos : 0 < k := by
      unfold page at hk
      omega
    have hu : u32 (off + k) = off + k := Nat.mod_eq_of_lt (by omega)
    rw [hu, ih (by omega) (by omega), readPage_eq, map_range'_block (by decide) hk]
    intro i hi
    rw [byteAt, hi]

/-- **A read** returns the bytes of the file from the offset to the size. -/
theorem rRead_spec (hsize : x.size < 2 ^ 32) (hn : n < 2 ^ 32) :
    rRead x off n = window (byteAt x) x.size off n := by
  unfold rRead
  rw [window_eq]
  by_cases hle : x.size ≤ off
  · rw [if_pos hle, show min n (x.size - off) = 0 by omega]
    rfl
  · rw [if_neg hle]
    have hn' : (if x.size < u32 (off + n) ∨ u32 (off + n) < off then x.size - off else n) =
        min n (x.size - off) := clip_eq hsize hle hn
    rw [hn']
    exact readLoop_spec le_rfl (by omega)

/-! ## Writing -/

/-- How many pages can still be had. -/
def avail (x : RNode) : Nat := min (x.limit - x.used) x.frames

/-- The write reaches the end of the table of pages: it is too short for the write, and the
pages missing before its end can be had. -/
def Escapes (x : RNode) (off n : Nat) : Prop :=
  0 < n ∧ x.pages.length ≤ (off + n - 1) / page ∧
    (x.pages.drop (off / page)).countP Option.isNone ≤ avail x

/-- `k` bytes of `src` went into the pages at `off`. -/
structure Stored (x x' : RNode) (off : Nat) (src : List Byte) (k : Nat) : Prop where
  size : x'.size = x.size
  limit : x'.limit = x.limit
  length : x'.pages.length = x.pages.length
  bytes : ∀ i, byteAt x' i = if off ≤ i ∧ i < off + k then src.getD (i - off) 0 else byteAt x i
  used : x'.used + present x = x.used + present x'
  within : x.used ≤ x.limit → x'.used ≤ x'.limit
  filled : ∀ i, off ≤ i → i < off + k → ∃ p, x'.pages[i / page]? = some (some p)
  grows : ∀ (i : Nat) (p : Page), x.pages[i]? = some (some p) → ∃ q, x'.pages[i]? = some (some q)

theorem Stored.refl (x : RNode) (off : Nat) (src : List Byte) : Stored x x off src 0 :=
  ⟨rfl, rfl, rfl, fun i => by rw [if_neg (by omega)], rfl, id, fun i h1 h2 => by omega,
    fun _ p hp => ⟨p, hp⟩⟩

theorem Stored.trans {x'' : RNode} {k' : Nat} (h : Stored x x' off (src.take k) k)
    (h' : Stored x' x'' (off + k) (src.drop k) k') : Stored x x'' off src (k + k') where
  size := h'.size.trans h.size
  limit := h'.limit.trans h.limit
  length := h'.length.trans h.length
  bytes i := by
    rw [h'.bytes i, h.bytes i]
    by_cases h1 : off + k ≤ i ∧ i < off + k + k'
    · rw [if_pos h1, if_pos ⟨by omega, by omega⟩, getD_eq_getElem?_getD,
        getD_eq_getElem?_getD, List.getElem?_drop, show k + (i - (off + k)) = i - off by omega]
    · rw [if_neg h1]
      by_cases h2 : off ≤ i ∧ i < off + k
      · rw [if_pos h2, if_pos ⟨by omega, by omega⟩, getD_eq_getElem?_getD,
          getD_eq_getElem?_getD, List.getElem?_take_of_lt (by omega)]
      · rw [if_neg h2, if_neg (by omega)]
  used := by
    have := h.used
    have := h'.used
    omega
  within hle := h'.within (h.within hle)
  filled i h1 h2 := by
    by_cases hi : i < off + k
    · obtain ⟨p, hp⟩ := h.filled i h1 hi
      exact h'.grows _ p hp
    · exact h'.filled i (by omega) (by omega)
  grows i p hp := by
    obtain ⟨q, hq⟩ := h.grows i p hp
    exact h'.grows i q hq

theorem countP_set_some {i : Nat} {old : Option Page} (h : P[i]? = some old) (p : Page) :
    (P.set i (some p)).countP Option.isSome + (if old.isSome then 1 else 0) =
      P.countP Option.isSome + 1 := by
  obtain ⟨hi, rfl⟩ := List.getElem?_eq_some_iff.1 h
  have hpos : P[i].isSome = true → 0 < P.countP Option.isSome := fun h =>
    countP_pos_iff.2 ⟨_, getElem_mem hi, h⟩
  rw [countP_set hi, if_pos (show (some p).isSome = true from rfl)]
  split_ifs with hold
  · have := hpos hold
    omega
  · omega

/-- One page of a write, into a page that is there or a new one. -/
theorem stored_page {u f : Nat} {old : Option Page} (hp : x.pages[off / page]? = some old)
    (hlen : off % page + src.length ≤ page) (hu : u + (if old.isSome then 1 else 0) = x.used + 1)
    (hle : x.used ≤ x.limit → u ≤ x.limit) :
    Stored x { x with
      used := u
      frames := f
      pages := x.pages.set (off / page)
        (some (copyIn (old.getD fun _ => 0) (off % page) src)) } off src src.length := by
  have hlt : off / page < x.pages.length := (List.getElem?_eq_some_iff.1 hp).1
  refine ⟨rfl, rfl, by simp, ?_, ?_, hle, ?_, ?_⟩
  · intro i
    unfold byteAt
    simp only [List.getElem?_set, hlt, if_true]
    by_cases hi : off / page = i / page
    · have hold : pageByte (some old) (i % page) = (old.getD fun _ => 0) (i % page) := by
        cases old <;> rfl
      rw [if_pos hi, ← hi, hp, hold]
      show copyIn _ _ _ _ = _
      unfold copyIn
      unfold page at hi hlen ⊢
      by_cases hin : off ≤ i ∧ i < off + src.length
      · rw [if_pos ⟨by omega, by omega⟩, if_pos hin]
        congr 1
        omega
      · rw [if_neg (by omega), if_neg hin]
    · rw [if_neg hi, if_neg]
      unfold page at hi hlen
      omega
  · show u + present x = x.used + List.countP Option.isSome (x.pages.set (off / page) _)
    have := countP_set_some hp (copyIn (old.getD fun _ => 0) (off % page) src)
    unfold present
    omega
  · intro i h1 h2
    have hi : i / page = off / page := by
      unfold page at hlen ⊢
      omega
    exact ⟨_, by rw [hi]; simp [hlt]; rfl⟩
  · intro i p hip
    by_cases hi : off / page = i
    · exact ⟨_, by simp [← hi, hlt]; rfl⟩
    · exact ⟨p, by simp [hi, hip]⟩

/-- How many pages `n` bytes at `off` lie in. -/
def span (off n : Nat) : Nat := (off % page + n + (page - 1)) / page

theorem writeLoop_nil (hz : src.length = 0) :
    writeLoop fuel x src off done = some (x, off, done) := by
  cases fuel with
  | zero => rfl
  | succ fuel => rw [writeLoop, if_pos hz]

/-- **One turn of the loop**: it leaves the table of pages, it finds no page to be had, or it
fills what is left of one page. -/
theorem writeLoop_turn (hz : src.length ≠ 0) (hoff : off + src.length < 2 ^ 32)
    (hk : k = min (page - off % page) src.length) :
    (x.pages.length ≤ off / page ∧ writeLoop (fuel + 1) x src off done = none) ∨
    ((x.pages[off / page]? = some none ∧ avail x = 0) ∧
      writeLoop (fuel + 1) x src off done = some (x, off, done)) ∨
    ∃ x1, off / page < x.pages.length ∧ ¬(x.pages[off / page]? = some none ∧ avail x = 0) ∧
      Stored x x1 off (src.take k) k ∧ avail x ≤ avail x1 + 1 ∧
      avail x1 + (x.pages.drop (off / page)).countP Option.isNone =
        avail x + (x1.pages.drop (off / page + 1)).countP Option.isNone ∧
      writeLoop (fuel + 1) x src off done =
        writeLoop fuel x1 (src.drop k) (off + k) (done + k) := by
  have hchunk : (src.take k).length = k := by
    rw [length_take]
    omega
  have hfit : off % page + (src.take k).length ≤ page := by
    rw [hchunk]
    unfold page at hk ⊢
    omega
  have hu : u32 (off + k) = off + k := Nat.mod_eq_of_lt (by omega)
  have hdrop : ∀ {q}, x.pages[off / page]? = some q → off / page < x.pages.length ∧
      x.pages.drop (off / page) = q :: x.pages.drop (off / page + 1) := by
    intro q hq
    obtain ⟨hin, rfl⟩ := List.getElem?_eq_some_iff.1 hq
    exact ⟨hin, drop_eq_getElem_cons hin⟩
  simp only [writeLoop, if_neg hz, ← hk, hu]
  rcases hpg : x.pages[off / page]? with _ | _ | p
  · exact .inl ⟨List.getElem?_eq_none_iff.1 hpg, rfl⟩
  · obtain ⟨hin, hdrop⟩ := hdrop hpg
    dsimp only
    by_cases hfull : x.limit ≤ x.used ∨ x.frames = 0
    · refine .inr (.inl ⟨⟨rfl, ?_⟩, if_pos hfull⟩)
      unfold avail
      omega
    · have hst := stored_page (u := x.used + 1) (f := x.frames - 1) hpg hfit (by simp) (by omega)
      rw [hchunk] at hst
      refine .inr (.inr ⟨_, hin, fun h => ?_, hst, ?_, ?_, if_neg hfull⟩)
      · have := h.2
        unfold avail at this
        omega
      · unfold avail
        simp only
        omega
      · rw [hdrop, drop_set_of_lt (by omega), countP_cons_of_pos rfl]
        unfold avail
        simp only
        omega
  · obtain ⟨hin, hdrop⟩ := hdrop hpg
    have hst := stored_page (u := x.used) (f := x.frames) hpg hfit (by simp) id
    rw [hchunk] at hst
    refine .inr (.inr ⟨_, hin, nofun, hst, Nat.le_succ _, ?_, rfl⟩)
    rw [hdrop, drop_set_of_lt (by omega), countP_cons_of_neg (by simp)]
    rfl

/-- Whether the rest escapes is whether the whole does. -/
theorem escapes_rest (hk : k = min (page - off % page) n) (hlen : x'.pages.length = x.pages.length)
    (hin : off / page < x.pages.length)
    (hcount : avail x' + (x.pages.drop (off / page)).countP Option.isNone =
      avail x + (x'.pages.drop (off / page + 1)).countP Option.isNone) :
    Escapes x' (off + k) (n - k) ↔ Escapes x off n := by
  unfold Escapes
  rw [hlen]
  by_cases hrest : k < n
  · have hpg : (off + k) / page = off / page + 1 := by
      unfold page at hk ⊢
      omega
    rw [hpg, show off + k + (n - k) - 1 = off + n - 1 by omega]
    constructor
    · rintro ⟨-, h2, h3⟩
      exact ⟨by omega, h2, by omega⟩
    · rintro ⟨-, h2, h3⟩
      exact ⟨by omega, h2, by omega⟩
  · have hend : n ≠ 0 → (off + n - 1) / page = off / page := by
      unfold page at hk ⊢
      omega
    constructor
    · rintro ⟨h1, -⟩
      omega
    · rintro ⟨h1, h2, -⟩
      rw [hend (by omega)] at h2
      omega

/-- **The loop of `r_write`** leaves the table of pages or stores the first `k` bytes.  It makes
no progress exactly if there is nothing to write or the first page cannot be had, and with pages
enough it stores everything. -/
theorem writeLoop_spec (x : RNode) (src : List Byte) (off done : Nat)
    (hoff : off + src.length < 2 ^ 32) (hfuel : src.length ≤ fuel) :
    (Escapes x off src.length ∧ writeLoop fuel x src off done = none) ∨
      (¬Escapes x off src.length ∧ ∃ x' k, writeLoop fuel x src off done =
          some (x', off + k, done + k) ∧ k ≤ src.length ∧ Stored x x' off src k ∧
        (k = 0 ↔ src.length = 0 ∨ x.pages[off / page]? = some none ∧ avail x = 0) ∧
        (span off src.length ≤ avail x → k = src.length)) := by
  induction fuel using Nat.strong_induction_on generalizing x src off done with
  | _ fuel ih =>
    by_cases hz : src.length = 0
    · exact .inr ⟨fun h => absurd h.1 (by omega), x, 0, writeLoop_nil hz, hz.ge,
        Stored.refl x off src, by simp [hz], fun _ => hz.symm⟩
    obtain ⟨fuel, rfl⟩ := Nat.exists_eq_succ_of_ne_zero (show fuel ≠ 0 by omega)
    obtain ⟨k, hk⟩ : ∃ k, k = min (page - off % page) src.length := ⟨_, rfl⟩
    rcases writeLoop_turn hz hoff hk with
      ⟨hle, h⟩ | ⟨hnone, h⟩ | ⟨x1, hin, hfirst, hst, hone, hcount, h⟩
    · have hmono : off / page ≤ (off + src.length - 1) / page := Nat.div_le_div_right (by omega)
      refine .inl ⟨⟨by omega, hle.trans hmono, ?_⟩, h⟩
      rw [drop_eq_nil_of_le hle]
      exact Nat.zero_le _
    · have hpos : 0 < (x.pages.drop (off / page)).countP Option.isNone :=
        countP_pos_iff.2 ⟨none, mem_of_getElem? (i := 0) (by simpa using hnone.1), rfl⟩
      refine .inr ⟨fun he => ?_, x, 0, h, Nat.zero_le _, Stored.refl x off src,
        iff_of_true rfl (.inr hnone), fun hsp => ?_⟩
      · have := he.2.2
        omega
      · unfold span page at hsp
        omega
    · have hkpos : 0 < k := by
        unfold page at hk
        omega
      -- the rest lies in one page less
      have hspan : src.length - k = 0 ∨
          span (off + k) (src.length - k) + 1 ≤ span off src.length := by
        unfold span page
        unfold page at hk
        omega
      have hesc := escapes_rest hk hst.length hin hcount
      rcases ih fuel (Nat.lt_succ_self _) x1 (src.drop k) (off + k) (done + k)
        (by rw [length_drop]; omega) (by rw [length_drop]; omega) with
        ⟨he, h'⟩ | ⟨he, x2, k2, h', hk2, hst2, -, hall⟩
      · rw [length_drop, hesc] at he
        exact .inl ⟨he, h.trans h'⟩
      · rw [length_drop] at he hk2 hall
        refine .inr ⟨mt hesc.2 he, x2, k + k2, ?_, by omega, hst.trans hst2,
          iff_of_false (by omega) (not_or.2 ⟨hz, hfirst⟩), fun hsp => by omega⟩
        rw [h, h', Nat.add_assoc, Nat.add_assoc]

/-! ## Whole calls -/

theorem le_capLoop (fuel cap np : Nat) (hc : 0 < cap) (hf : np ≤ cap * 2 ^ fuel) :
    np ≤ capLoop fuel cap np := by
  induction fuel generalizing cap with
  | zero => simpa [capLoop] using hf
  | succ fuel ih =>
    rw [capLoop]
    by_cases h : cap < np
    · rw [if_pos h]
      refine ih (cap * 2) (by omega) ?_
      rw [show cap * 2 * 2 ^ fuel = cap * 2 ^ (fuel + 1) by ring]
      exact hf
    · rw [if_neg h]
      omega

/-- A longer table of pages, as `grow_pages` leaves it, holds the same bytes. -/
structure Longer (x x' : RNode) : Prop where
  size : x'.size = x.size
  used : x'.used = x.used
  limit : x'.limit = x.limit
  frames : x'.frames = x.frames
  present : present x' = present x
  bytes : ∀ i, byteAt x' i = byteAt x i
  length : x.pages.length ≤ x'.pages.length
  pages : ∀ i : Nat, i < x.pages.length → x'.pages[i]? = x.pages[i]?

theorem Longer.refl (x : RNode) : Longer x x :=
  ⟨rfl, rfl, rfl, rfl, rfl, fun _ => rfl, le_rfl, fun _ _ => rfl⟩

theorem growPages_spec {kmalloc : Nat → Bool} {np : Nat} (hnp : np < 2 ^ 32)
    (h : growPages kmalloc x np = some x') : Longer x x' ∧ np ≤ x'.pages.length := by
  unfold growPages at h
  by_cases h1 : np ≤ x.pages.length
  · rw [if_pos h1] at h
    cases h
    exact ⟨Longer.refl x, h1⟩
  · rw [if_neg h1] at h
    simp only [Option.ite_none_right_eq_some, Option.some.injEq] at h
    obtain ⟨-, rfl⟩ := h
    have hcap : np ≤ capLoop 32 8 np := le_capLoop 32 8 np (by decide) (by omega)
    refine ⟨⟨rfl, rfl, rfl, rfl, ?_, ?_, ?_, fun i hi => List.getElem?_append_left hi⟩, ?_⟩
    · simp [present, countP_append, countP_replicate]
    · intro i
      unfold byteAt
      simp only
      rw [List.getElem?_append]
      split_ifs with hi
      · rfl
      · rw [List.getElem?_replicate, List.getElem?_eq_none_iff.2 (by omega)]
        split_ifs <;> rfl
    · simp
    · simp only [length_append, length_replicate]
      omega

theorem le_countP_of_range {a b : Nat} (h : ∀ i, a ≤ i → i < b → ∃ p, P[i]? = some (some p)) :
    b - a ≤ P.countP Option.isSome := by
  have hall : ∀ q ∈ (P.drop a).take (b - a), Option.isSome q = true := by
    intro q hq
    obtain ⟨i, hi, rfl⟩ := mem_iff_getElem.1 hq
    rw [length_take] at hi
    obtain ⟨p, hp⟩ := h (a + i) (by omega) (by omega)
    rw [getElem_take, getElem_drop, (List.getElem?_eq_some_iff.1 hp).2]
    rfl
  have hlen : ((P.drop a).take (b - a)).length = b - a := by
    rw [length_take, length_drop]
    by_cases hab : a < b
    · obtain ⟨p, hp⟩ := h (b - 1) (by omega) (by omega)
      have := (List.getElem?_eq_some_iff.1 hp).1
      omega
    · omega
  calc b - a = ((P.drop a).take (b - a)).countP Option.isSome := by
        rw [countP_eq_length.2 hall, hlen]
    _ ≤ P.countP Option.isSome :=
        List.Sublist.countP_le ((take_sublist _ _).trans (drop_sublist _ _))

/-- A write stores no more than the pages within the limit hold. -/
theorem Stored.small (h : Stored x x' off src k) (hp : present x ≤ x.used)
    (hl : x.used ≤ x.limit) (hq : x.limit ≤ 2 ^ 18) : k ≤ 2 ^ 30 := by
  by_cases hk : k = 0
  · omega
  have hpages : (off + k - 1) / page + 1 - off / page ≤ present x' := by
    apply le_countP_of_range
    intro i h1 h2
    by_cases hi : i = off / page
    · obtain ⟨p, hp⟩ := h.filled off le_rfl (by omega)
      exact ⟨p, hi ▸ hp⟩
    · have hi' : off / page < i := by omega
      obtain ⟨p, hp⟩ := h.filled (i * page) (by unfold page at hi' ⊢; omega)
        (by unfold page at h2 ⊢; omega)
      rw [Nat.mul_div_cancel _ (by decide)] at hp
      exact ⟨p, hp⟩
  have hused := h.used
  have hle := h.within hl
  have hlim := h.limit
  unfold page at hpages
  omega

/-- The file that a write works on, once the table of pages is long enough, or `none` if there
is no memory for it. -/
def grown (kmalloc : Nat → Bool) (x : RNode) (off n : Nat) : Option RNode :=
  growPages kmalloc x (u32 (off + n + page - 1) / page)

/-- What is to hold for a write to do what it reports: there is nothing to write, the end of the
write is not representable, there is no memory for the table of pages, or the write stays in the
table and does not start behind the end of the file or gets its first page. -/
def Proper (kmalloc : Nat → Bool) (x : RNode) (off n : Nat) : Prop :=
  n = 0 ∨ 2 ^ 32 ≤ off + n ∨
    match grown kmalloc x off n with
    | none => True
    | some y => ¬Escapes y off n ∧
        (off ≤ x.size ∨ ¬(y.pages[off / page]? = some none ∧ avail y = 0))

theorem Longer.wf (h : Longer x x') (hw : Wf x) : Wf x' where
  clean i hi := by
    rw [h.bytes i]
    exact hw.clean i (h.size ▸ hi)
  size := h.size ▸ hw.size
  used := by
    rw [h.present, h.used]
    exact hw.used
  limit := by
    rw [h.used, h.limit]
    exact hw.limit
  quarter := h.limit ▸ hw.quarter

/-- What a call of `r_write` comes to: it is refused, it leaves the table of pages, or `k` bytes
are stored. -/
inductive Written (kmalloc : Nat → Bool) (now : Nat) (x : RNode) (src : List Byte) (off : Nat) :
    Option (RNode × Int) → Prop
  | tooFar (h : 2 ^ 32 ≤ off + src.length) : Written kmalloc now x src off (some (x, -einval))
  | noTable (h : off + src.length < 2 ^ 32) (hg : grown kmalloc x off src.length = none) :
      Written kmalloc now x src off (some (x, -enospc))
  | escaped {y : RNode} (h : off + src.length < 2 ^ 32)
      (hg : grown kmalloc x off src.length = some y) (hl : Longer x y)
      (he : Escapes y off src.length) : Written kmalloc now x src off none
  | stored {y z : RNode} {k : Nat} (h : off + src.length < 2 ^ 32)
      (hg : grown kmalloc x off src.length = some y) (hl : Longer x y)
      (he : ¬Escapes y off src.length) (hk : k ≤ src.length) (hs : Stored y z off src k)
      (h0 : k = 0 ↔ src.length = 0 ∨ y.pages[off / page]? = some none ∧ avail y = 0)
      (hfull : (off + src.length - 1) / page < y.pages.length →
        span off src.length ≤ avail y → k = src.length) :
      Written kmalloc now x src off (some
        ({ z with size := max x.size (off + k), mtime := now, ctime := now },
          if src.length ≠ 0 ∧ k = 0 then -enospc else (BitVec.ofNat 32 k).toInt))

theorem rWrite_spec (kmalloc : Nat → Bool) (now : Nat) (x : RNode) (hoff : off < 2 ^ 32)
    (hlen : src.length < 2 ^ 32) :
    Written kmalloc now x src off (rWrite kmalloc now x src off) := by
  unfold rWrite
  simp only
  by_cases hwrap : 2 ^ 32 ≤ off + src.length
  · rw [if_pos (show u32 (off + src.length) < off by unfold u32; omega)]
    exact .tooFar hwrap
  have hsum : off + src.length < 2 ^ 32 := by omega
  rw [if_neg (show ¬u32 (off + src.length) < off by unfold u32; omega)]
  cases hg : growPages kmalloc x (u32 (off + src.length + page - 1) / page) with
  | none => exact .noTable hsum hg
  | some y =>
    have hnp : u32 (off + src.length + page - 1) / page < 2 ^ 32 := by
      unfold u32 page
      omega
    obtain ⟨hl, -⟩ := growPages_spec hnp hg
    simp only
    rcases writeLoop_spec y src off 0 hsum (le_refl src.length) with
      ⟨he, h⟩ | ⟨he, z, k, h, hk, hs, h0, hfull⟩
    · rw [h]
      exact .escaped hsum hg hl he
    · have hsize : (if z.size < off + k then off + k else z.size) = max x.size (off + k) := by
        rw [hs.size, hl.size]
        split_ifs <;> omega
      have hres : (if 0 + k = 0 ∧ 0 < src.length then -enospc else
          (BitVec.ofNat 32 (0 + k)).toInt) =
          if src.length ≠ 0 ∧ k = 0 then -enospc else (BitVec.ofNat 32 k).toInt := by
        rw [Nat.zero_add]
        apply if_congr _ rfl rfl
        omega
      rw [h, Option.map_some, hsize, hres]
      exact .stored hsum hg hl he hk hs h0 fun _ => hfull

/-- The count of bytes stored is a number of 31 bits. -/
theorem Stored.toInt (h : Stored x x' off src k) (hw : Wf x) :
    (BitVec.ofNat 32 k).toInt = (k : Int) := by
  have hsmall := h.small hw.used hw.limit hw.quarter
  rw [BitVec.toInt_eq_toNat_of_lt]
  · rw [BitVec.toNat_ofNat, Nat.mod_eq_of_lt (by omega)]
  · rw [BitVec.toNat_ofNat, Nat.mod_eq_of_lt (by omega)]
    omega

/-- **A write obeys** exactly if it is `Proper`. -/
theorem rWrite_obeys (kmalloc : Nat → Bool) (now : Nat) (hw : Wf x) (hoff : off < 2 ^ 32)
    (hlen : src.length < 2 ^ 32) :
    (∃ x' r, rWrite kmalloc now x src off = some (x', r) ∧
      (view x).Obeys (2 ^ 32) (view x') off src r) ↔ Proper kmalloc x off src.length := by
  have hsame : ∀ e : Int, 0 < e → (view x).Obeys (2 ^ 32) (view x) off src (-e) := fun e he =>
    ⟨fun _ => ⟨rfl, fun _ _ _ _ => rfl⟩, fun h => absurd h (by omega)⟩
  have hspec := rWrite_spec kmalloc now x hoff hlen
  generalize rWrite kmalloc now x src off = res at hspec
  unfold Proper
  cases hspec with
  | tooFar h => exact iff_of_true ⟨_, _, rfl, hsame einval (by decide)⟩ (.inr (.inl h))
  | noTable h hg =>
    rw [hg]
    exact iff_of_true ⟨_, _, rfl, hsame enospc (by decide)⟩ (.inr (.inr trivial))
  | escaped h hg _ he =>
    have hpos := he.1
    rw [hg]
    refine iff_of_false (by rintro ⟨_, _, h, -⟩; cases h) ?_
    rintro (h0 | h0 | ⟨h0, -⟩)
    · omega
    · omega
    · exact h0 he
  | @stored y z k h hg hl he hk hs h0 =>
    have hmax : max x.size (off + k) < 2 ^ 32 := by
      have := hw.size
      omega
    have hbytes : ∀ i, byteAt z i =
        if off ≤ i ∧ i < off + k then src.getD (i - off) default else byteAt x i := by
      intro i
      rw [hs.bytes i, hl.bytes i]
      rfl
    rw [hs.toInt (hl.wf hw), hg]
    have hview : (view x).Obeys (2 ^ 32)
        (view { z with size := max x.size (off + k), mtime := now, ctime := now }) off src
        (if src.length ≠ 0 ∧ k = 0 then -enospc else (k : Int)) ↔
          src.length = 0 ∨ off ≤ x.size ∨ k ≠ 0 :=
      View.obeys_iff (by decide) (fun _ _ _ hm => congrArg some (rRead_spec hw.size hm))
        (fun _ _ _ hm => congrArg some (rRead_spec hmax hm)) hw.size hk hbytes hw.clean rfl
    constructor
    · rintro ⟨_, r, heq, hob⟩
      cases heq
      rcases hview.1 hob with h1 | h1 | h1
      · exact .inl h1
      · exact .inr (.inr ⟨he, .inl h1⟩)
      · exact .inr (.inr ⟨he, .inr fun h2 => h1 (h0.2 (.inr h2))⟩)
    · intro hcond
      refine ⟨_, _, rfl, hview.2 ?_⟩
      rcases hcond with h1 | h1 | ⟨-, h1 | h1⟩
      · exact .inl h1
      · omega
      · exact .inr (.inl h1)
      · by_cases hz : src.length = 0
        · exact .inl hz
        · exact .inr (.inr fun h2 => (h0.1 h2).elim hz h1)

/-! ## Well-formed files stay well formed -/

theorem rWrite_wf {kmalloc : Nat → Bool} {now : Nat} {r : Int} (hw : Wf x) (hoff : off < 2 ^ 32)
    (hlen : src.length < 2 ^ 32) (h : rWrite kmalloc now x src off = some (x', r)) : Wf x' := by
  have hspec := rWrite_spec kmalloc now x hoff hlen
  rw [h] at hspec
  cases hspec with
  | tooFar => exact hw
  | noTable => exact hw
  | @stored y z k hsum _ hl _ hk hs =>
    have hwy := hl.wf hw
    have hsize := hw.size
    refine ⟨fun i hi => ?_, ?_, ?_, hs.within hwy.limit, hs.limit ▸ hwy.quarter⟩
    · have hi' : max x.size (off + k) ≤ i := hi
      show byteAt z i = 0
      rw [hs.bytes i, if_neg (by omega)]
      exact hwy.clean i (by rw [hl.size]; omega)
    · show max x.size (off + k) < 2 ^ 32
      omega
    · show present z ≤ z.used
      have := hs.used
      have := hwy.used
      omega

theorem byteAt_freeData (keep i : Nat) :
    byteAt (freeData x keep) i = if i / page < keep then byteAt x i else 0 := by
  unfold byteAt freeData
  simp only
  rw [List.getElem?_append, length_take]
  by_cases h1 : i / page < keep
  · rw [if_pos h1]
    by_cases h2 : i / page < x.pages.length
    · rw [if_pos (by omega), List.getElem?_take_of_lt h1]
    · rw [if_neg (by omega), List.getElem?_eq_none_iff.2 (by simp; omega),
        List.getElem?_eq_none_iff.2 (by omega)]
  · rw [if_neg h1, if_neg (by omega), List.getElem?_map]
    rcases (List.drop keep x.pages)[i / page - min keep x.pages.length]? with _ | q <;> rfl

theorem present_freeData (x : RNode) (keep : Nat) :
    present (freeData x keep) + (x.pages.drop keep).countP Option.isSome = present x := by
  have hnone :
      ((x.pages.drop keep).map fun _ => (none : Option Page)).countP Option.isSome = 0 := by simp
  show (x.pages.take keep ++ (x.pages.drop keep).map fun _ => none).countP Option.isSome + _ = _
  rw [countP_append, hnone, Nat.add_zero, ← countP_append, take_append_drop]
  rfl

theorem wf_freeData (hw : Wf x) (keep : Nat) : Wf (freeData x keep) where
  clean i hi := by
    rw [byteAt_freeData]
    split_ifs
    · exact hw.clean i hi
    · rfl
  size := hw.size
  used := by
    show _ ≤ x.used - (x.pages.drop keep).countP Option.isSome
    have := present_freeData x keep
    have := hw.used
    omega
  limit := le_trans (Nat.sub_le ..) hw.limit
  quarter := hw.quarter

/-- The `memset` of `r_truncate` on pages. -/
def clearTail (x : RNode) (keep len : Nat) : RNode :=
  if len % page ≠ 0 ∧ 0 < keep then
    match x.pages[keep - 1]? with
    | some (some p) =>
      let tail : Page := fun j => if len % page ≤ j ∧ j < page then 0 else p j
      { x with pages := x.pages.set (keep - 1) (some tail) }
    | _ => x
  else x

theorem rTruncate_eq (now : Nat) (x : RNode) (len : Nat) :
    rTruncate now x len =
      { (if len < x.size then
          clearTail (freeData x (u32 (len + page - 1) / page)) (u32 (len + page - 1) / page) len
        else x) with size := len, mtime := now, ctime := now } := rfl

theorem clearTail_counts (x : RNode) (keep len : Nat) :
    (clearTail x keep len).used = x.used ∧ (clearTail x keep len).limit = x.limit := by
  unfold clearTail
  split_ifs
  · split <;> exact ⟨rfl, rfl⟩
  · exact ⟨rfl, rfl⟩

theorem present_clearTail (x : RNode) (keep len : Nat) :
    present (clearTail x keep len) = present x := by
  unfold clearTail
  split_ifs
  · split
    · next p hp => exact Nat.add_right_cancel (countP_set_some hp _)
    · rfl
  · rfl

theorem byteAt_clearTail (x : RNode) (keep len i : Nat) : byteAt (clearTail x keep len) i =
    if (len % page ≠ 0 ∧ 0 < keep) ∧ i / page = keep - 1 ∧ len % page ≤ i % page then 0
    else byteAt x i := by
  unfold clearTail byteAt
  by_cases htail : len % page ≠ 0 ∧ 0 < keep
  · rw [if_pos htail]
    by_cases hi : i / page = keep - 1
    · rw [hi]
      split
      · next p hp =>
        rw [hp, List.getElem?_set_self (List.getElem?_eq_some_iff.1 hp).1]
        have hlt : i % page < page := Nat.mod_lt _ (by decide)
        exact if_congr (by tauto) rfl rfl
      · next hp =>
        have hz : pageByte x.pages[keep - 1]? (i % page) = 0 := by
          rcases hq : x.pages[keep - 1]? with _ | _ | p
          · rfl
          · rfl
          · exact absurd hq (hp p)
        rw [hz, ite_self]
    · rw [if_neg (by tauto)]
      split
      · rw [List.getElem?_set_ne (Ne.symm hi)]
      · rfl
  · rw [if_neg htail, if_neg (by tauto)]

theorem rTruncate_wf {now len : Nat} (hw : Wf x) (hlen : len < 2 ^ 32) :
    Wf (rTruncate now x len) := by
  rw [rTruncate_eq]
  by_cases hlt : len < x.size
  · simp only [if_pos hlt]
    set keep := u32 (len + page - 1) / page with hkeep
    have hwf := wf_freeData hw keep
    obtain ⟨hused, hlimit⟩ := clearTail_counts (freeData x keep) keep len
    refine ⟨fun i hi => ?_, hlen, ?_, ?_, hlimit.trans_le hwf.quarter⟩
    · show byteAt (clearTail (freeData x keep) keep len) i = 0
      rw [byteAt_clearTail, byteAt_freeData]
      split_ifs with htail hin
      · rfl
      · -- a byte behind the end in a page that is kept is in the tail
        change len ≤ i at hi
        unfold u32 page at hkeep
        unfold page at htail hin
        omega
      · rfl
    · show present (clearTail _ _ _) ≤ (clearTail _ _ _).used
      rw [present_clearTail, hused]
      exact hwf.used
    · show (clearTail _ _ _).used ≤ (clearTail _ _ _).limit
      rw [hused, hlimit]
      exact hwf.limit
  · rw [if_neg hlt]
    exact ⟨fun i hi => hw.clean i (le_trans (by omega : x.size ≤ len) hi), hlen, hw.used, hw.limit,
      hw.quarter⟩

end Tortoise.RamFs
