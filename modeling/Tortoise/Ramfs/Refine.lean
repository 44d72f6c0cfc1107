import Tortoise.Ramfs.Frames

/-!
# The files of a mount are arrays of bytes

What a memory file system is for: each file is an array of bytes, a write overwrites or extends
one of them, a truncation cuts it or fills it up with zeros, and a read returns part of it.  Every
run of operations on any files of a mount, with whatever the rest of the kernel does to its own
frames in between, follows this model and keeps the count of frames in use right
(`mounted_files_are_arrays`), as long as no write ends and no file is cut in the last page below
`2 ^ 32`: there the number of pages wraps around (`page_count_wraps`).
-/

namespace Tortoise.RamFs

open Lib List
open Kernel (Mm)

/-! ## The model -/

/-- An array of bytes for each file; a file that is gone has none. -/
abbrev Arrays := List (Option (List Byte))

/-- `l` cut or filled up with zeros to `len` bytes. -/
def resize (l : List Byte) (len : Nat) : List Byte :=
  l.take len ++ List.replicate (len - l.length) 0

/-- What an operation may answer, and what it makes of the arrays.  A write may be cut short and
says how much it took, or it takes nothing and is refused. -/
inductive Model : Arrays → Op → Arrays → Answer → Prop
  | write {a : Arrays} {i off k : Nat} {l src : List Byte} (hi : a[i]? = some (some l))
      (hk : k ≤ src.length) (h0 : k = 0 → src.length = 0) :
      Model a (.write i off src) (a.set i (some (overwrite l off (src.take k)))) (.count k)
  | refused {a : Arrays} {i off : Nat} {l src : List Byte} {e : Int} (hi : a[i]? = some (some l))
      (he : e = enospc ∨ e = einval ∧ 2 ^ 32 ≤ off + src.length) :
      Model a (.write i off src) a (.count (-e))
  | trunc {a : Arrays} {i len : Nat} {l : List Byte} (hi : a[i]? = some (some l)) :
      Model a (.trunc i len) (a.set i (some (resize l len))) (.count 0)
  | read {a : Arrays} {i off n : Nat} {l : List Byte} (hi : a[i]? = some (some l)) :
      Model a (.read i off n) a (.bytes ((l.drop off).take n))
  | create {a : Arrays} : Model a .create (a ++ [some []]) .done
  | release {a : Arrays} {i : Nat} {l : List Byte} (hi : a[i]? = some (some l)) :
      Model a (.release i) (a.set i none) .done

inductive ModelRun : Arrays → List (Op × Answer) → Arrays → Prop
  | nil {a : Arrays} : ModelRun a [] a
  | cons {a a' a'' : Arrays} {op : Op} {r : Answer} {tr : List (Op × Answer)}
      (h : Model a op a' r) (hr : ModelRun a' tr a'') : ModelRun a ((op, r) :: tr) a''

/-! ## The code -/

/-- The frames a file holds. -/
def heldBy : Option RFile → Nat
  | none => 0
  | some f => f.pages.countP (· ≠ 0)

/-- The frames all files of a mount hold. -/
def heldFrames (m : Mount) : Nat := (m.files.map heldBy).sum

/-- A mount as the operations leave it: every frame in a table is in use and in no other place, the
count of frames is right and within the limit, and there are zeros behind the end of each
file. -/
structure Sound (m : Mount) : Prop where
  owns : ∀ (i : Nat) (f : RFile), m.files[i]? = some (some f) → Owns (m.node f)
  apart : ∀ (i j : Nat) (f g : RFile) (pa : Nat), m.files[i]? = some (some f) →
    m.files[j]? = some (some g) → pa ∈ f.pages → pa ∈ g.pages → pa ≠ 0 → i = j
  used : m.used = heldFrames m
  limit : m.used ≤ m.limit
  quarter : m.limit ≤ 2 ^ 18
  clean : ∀ (i : Nat) (f : RFile), m.files[i]? = some (some f) →
    ∀ j, f.size ≤ j → byteAt (m.node f).view j = 0
  size : ∀ (i : Nat) (f : RFile), m.files[i]? = some (some f) → f.size < 2 ^ 32

/-- The condition on an operation.  Its arguments are of 32 bits and name a file.  A write that is
not refused ends below the last page under `2 ^ 32`, or in a table that is long enough already, and
it does not start behind the end without getting its first page.  A file is not cut in the last
page. -/
def Meets (m : Mount) : Op → Prop
  | .write i off src => ∃ f, m.files[i]? = some (some f) ∧ off < 2 ^ 32 ∧ src.length < 2 ^ 32 ∧
      (src.length = 0 ∨ 2 ^ 32 ≤ off + src.length ∨
        (off + src.length ≤ 2 ^ 32 - page ∨ (off + src.length - 1) / page < f.pages.length) ∧
          (off ≤ f.size ∨ f.pages.getD (off / page) 0 ≠ 0 ∨ m.used < m.limit ∧ 0 < free m.mm))
  | .trunc i len => ∃ f, m.files[i]? = some (some f) ∧ len < 2 ^ 32 ∧
      (f.size ≤ len ∨ len ≤ 2 ^ 32 - page)
  | .read i off n => ∃ f, m.files[i]? = some (some f) ∧ off < 2 ^ 32 ∧ n < 2 ^ 32
  | .create => True
  | .release i => ∃ f, m.files[i]? = some (some f)

/-- What the rest of the kernel may do to the frames: it leaves those of the files alone. -/
def Elsewhere (m : Mount) (mm' : Mm) : Prop :=
  ∀ (i : Nat) (f : RFile), m.files[i]? = some (some f) → ∀ pa ∈ f.pages, pa ≠ 0 →
    Held mm' pa ∧ mm'.bytes (pa / page) = m.mm.bytes (pa / page)

/-- A run of operations that meet the condition. -/
inductive Run : Mount → List (Op × Answer) → Mount → Prop
  | nil {m : Mount} : Run m [] m
  | cons {m m' m'' : Mount} {op : Op} {r : Answer} {tr : List (Op × Answer)}
      {kmalloc : Nat → Bool} {now : Nat} (hm : Meets m op)
      (h : perform kmalloc now m op = some (m', r)) (hr : Run m' tr m'') : Run m ((op, r) :: tr) m''
  | elsewhere {m m' : Mount} {mm : Mm} {tr : List (Op × Answer)} (he : Elsewhere m mm)
      (hr : Run { m with mm := mm } tr m') : Run m tr m'

/-- The bytes of a file. -/
def contents (v : RNode) : List Byte := (List.range v.size).map (byteAt v)

/-- The arrays a mount stands for. -/
def arrays (m : Mount) : Arrays := m.files.map (Option.map fun f => contents (m.node f).view)

variable {m m' : Mount} {f : RFile} {x : Node} {v v' : RNode} {i off n len k now : Nat}
  {src : List Byte} {kmalloc : Nat → Bool} {op : Op} {r : Answer}

theorem arrays_getElem? (hi : m.files[i]? = some (some f)) :
    (arrays m)[i]? = some (some (contents (m.node f).view)) := by
  unfold arrays
  rw [List.getElem?_map, hi]
  rfl

/-! ## Arrays of files that changed -/

theorem contents_eq (hsize : v'.size = v.size) (hbytes : ∀ j, byteAt v' j = byteAt v j) :
    contents v' = contents v := by
  unfold contents
  rw [hsize]
  exact map_congr_left fun j _ => hbytes j

/-- The array of a file from its bytes before. -/
theorem contents_overwrite (hk : k ≤ src.length) (hclean : ∀ j, v.size ≤ j → byteAt v j = 0)
    (hsize : v'.size = max v.size (off + k)) (hbytes : ∀ j, byteAt v' j =
      if off ≤ j ∧ j < off + k then src.getD (j - off) 0 else byteAt v j) :
    contents v' = overwrite (contents v) off (src.take k) := by
  unfold contents
  rw [overwrite_take hk hbytes hclean, hsize]

theorem contents_resize (hclean : ∀ j, v.size ≤ j → byteAt v j = 0) (hsize : v'.size = len)
    (hbytes : ∀ j < len, byteAt v' j = byteAt v j) : contents v' = resize (contents v) len := by
  unfold contents
  rw [hsize]
  exact (resize_range (fun j hj _ => hbytes j hj) fun j hj h =>
    (hbytes j hj).trans (hclean j h)).symm

/-! ## Truncation on pages -/

/-- A truncation gives back the frames it takes from the file. -/
theorem rTruncate_used (hv : present v ≤ v.used) (now len : Nat) :
    (rTruncate now v len).used + present v = v.used + present (rTruncate now v len) := by
  rw [rTruncate_eq]
  by_cases h : len < v.size
  · simp only [if_pos h]
    have hclear := (clearTail_counts (freeData v (u32 (len + page - 1) / page))
      (u32 (len + page - 1) / page) len).1
    have hpres := present_freeData v (u32 (len + page - 1) / page)
    have hused : (freeData v (u32 (len + page - 1) / page)).used = v.used -
        (v.pages.drop (u32 (len + page - 1) / page)).countP Option.isSome := rfl
    have hp := present_clearTail (freeData v (u32 (len + page - 1) / page))
      (u32 (len + page - 1) / page) len
    unfold present at hp hpres hv ⊢
    simp only
    omega
  · simp only [if_neg h]
    rfl

/-- Below the new end a truncation changes nothing, unless the number of pages wraps around. -/
theorem rTruncate_bytes (now : Nat) (hlen : len < 2 ^ 32) (hc : v.size ≤ len ∨ len ≤ 2 ^ 32 - page)
    {j : Nat} (hj : j < len) : byteAt (rTruncate now v len) j = byteAt v j := by
  rw [rTruncate_eq]
  by_cases h : len < v.size
  · simp only [if_pos h]
    have hpages : u32 (len + page - 1) / page = (len + page - 1) / page := by
      unfold u32
      rw [Nat.mod_eq_of_lt]
      unfold page at hc ⊢
      omega
    rw [hpages]
    have hbelow : j / page < (len + page - 1) / page := by
      unfold page
      omega
    show byteAt (clearTail _ _ _) j = _
    rw [byteAt_clearTail, if_neg, byteAt_freeData, if_pos hbelow]
    unfold page
    omega
  · simp only [if_neg h]
    rfl

/-! ## A mount after an operation on one file -/

theorem sum_set {l : List Nat} (hi : i < l.length) (a : Nat) :
    (l.set i a).sum + l[i] = l.sum + a := by
  have hsplit : l.sum = (l.take i).sum + (l[i] + (l.drop (i + 1)).sum) := by
    conv_lhs => rw [← take_append_drop i l, drop_eq_getElem_cons hi]
    rw [sum_append, sum_cons]
  rw [List.sum_set, if_pos hi, hsplit]
  omega

theorem heldFrames_set (hi : m.files[i]? = some (some f)) (g : Option RFile) :
    (((m.files.set i g).map heldBy).sum) + f.pages.countP (· ≠ 0) = heldFrames m + heldBy g := by
  have hlt : i < (m.files.map heldBy).length := by
    rw [length_map]
    exact (List.getElem?_eq_some_iff.1 hi).1
  have hat : (m.files.map heldBy)[i] = f.pages.countP (· ≠ 0) := by
    rw [getElem_map, (List.getElem?_eq_some_iff.1 hi).2]
    rfl
  rw [map_set, ← hat]
  exact sum_set hlt _

theorem le_heldFrames (hi : m.files[i]? = some (some f)) :
    f.pages.countP (· ≠ 0) ≤ heldFrames m := by
  have h := heldFrames_set hi none
  simp only [heldBy] at h
  omega

/-- A file that others left alone reads as before. -/
theorem byteAt_congr {mm' : Mm} {u l : Nat}
    (h : ∀ pa ∈ f.pages, pa ≠ 0 → mm'.bytes (pa / page) = m.mm.bytes (pa / page)) (j : Nat) :
    byteAt (Node.view ⟨u, l, mm', f.size, f.mtime, f.ctime, f.pages⟩) j =
      byteAt (m.node f).view j := by
  unfold byteAt
  rw [view_getElem?, view_getElem?]
  show pageByte (f.pages[j / page]?.map _) _ = pageByte (f.pages[j / page]?.map _) _
  cases hp : f.pages[j / page]? with
  | none => rfl
  | some pa =>
    rw [Option.map_some, Option.map_some, entry_congr (h pa (mem_of_getElem? hp))]
    rfl

theorem contents_congr {mm' : Mm} {u l : Nat}
    (h : ∀ pa ∈ f.pages, pa ≠ 0 → mm'.bytes (pa / page) = m.mm.bytes (pa / page)) :
    contents (Node.view ⟨u, l, mm', f.size, f.mtime, f.ctime, f.pages⟩) =
      contents (m.node f).view := contents_eq rfl (byteAt_congr h)

/-- What an operation leaves of the file `f` it worked on. -/
structure Leaves (m : Mount) (f : RFile) (x : Node) : Prop where
  owns : Owns x
  apart : Apart (m.node f) x
  limit : x.limit = m.limit
  within : x.used ≤ x.limit
  used : x.used + present (m.node f).view = m.used + present x.view
  clean : ∀ j, x.size ≤ j → byteAt x.view j = 0
  size : x.size < 2 ^ 32

/-- Below the last page the table is made long enough. -/
theorem grown_long {y : RNode} (hpos : 0 < n) (hend : off + n ≤ 2 ^ 32 - page)
    (hg : grown kmalloc v off n = some y) : (off + n - 1) / page < y.pages.length := by
  have hu : u32 (off + n + page - 1) = off + n + page - 1 := by
    unfold u32
    rw [Nat.mod_eq_of_lt]
    unfold page at hend ⊢
    omega
  unfold grown at hg
  rw [hu] at hg
  unfold page at *
  obtain ⟨-, hlong⟩ := growPages_spec (by omega) hg
  omega

section

variable (h : Sound m)

include h

theorem Sound.used_lt : m.used < 2 ^ 32 :=
  (h.limit.trans h.quarter).trans_lt (by decide)

section

variable (hi : m.files[i]? = some (some f))

include hi

theorem Sound.wf : Wf (m.node f).view where
  clean := h.clean i f hi
  size := h.size i f hi
  used := by
    rw [present_view]
    exact (le_heldFrames hi).trans h.used.ge
  limit := h.limit
  quarter := h.quarter

/-- The other files after an operation on file `i`: their frames are in use as before, hold what
they held, and are not in the table of file `i`. -/
theorem Sound.others (ha : Apart (m.node f) x) {j : Nat} {g : RFile}
    (hj : m.files[j]? = some (some g)) (hji : j ≠ i) :
    ∀ pa ∈ g.pages, pa ≠ 0 → Held x.mm pa ∧
      x.mm.bytes (pa / page) = m.mm.bytes (pa / page) ∧ pa ∉ x.pages := by
  intro pa hpa h0
  refine ha pa ((h.owns j g hj).held pa hpa h0) fun hmem => hji ?_
  exact h.apart j i g f pa hj hi hpa hmem h0

/-- The mount after an operation, whether the file stays or not. -/
theorem Sound.set (hx : Leaves m f x) {g : Option RFile}
    (hg : g = some x.file ∨ g = none ∧ present x.view = 0) :
    Sound ⟨x.used, x.limit, x.mm, m.files.set i g⟩ := by
  have hother := fun {j : Nat} {g : RFile} => h.others hi hx.apart (j := j) (g := g)
  have hself : ∀ g', g = some g' → g' = x.file := by
    rintro g' rfl
    rcases hg with hg | ⟨hg, -⟩
    · exact Option.some.inj hg
    · cases hg
  refine ⟨?_, ?_, ?_, hx.within, hx.limit.trans_le h.quarter, ?_, ?_⟩
  · intro j g' hj
    rcases getElem?_set_cases hj with ⟨-, hg'⟩ | ⟨hji, hj⟩
    · rw [hself g' hg']
      exact ⟨hx.owns.held, hx.owns.once⟩
    · exact ⟨fun pa hpa h0 => (hother hj hji pa hpa h0).1, (h.owns j g' hj).once⟩
  · intro j k g₁ g₂ pa hj hk h₁ h₂ h0
    rcases getElem?_set_cases hj with ⟨hji, hg₁⟩ | ⟨hji, hj⟩
    · rcases getElem?_set_cases hk with ⟨hki, -⟩ | ⟨hki, hk⟩
      · rw [hji, hki]
      · rw [hself g₁ hg₁] at h₁
        exact absurd h₁ (hother hk hki pa h₂ h0).2.2
    · rcases getElem?_set_cases hk with ⟨hki, hg₂⟩ | ⟨hki, hk⟩
      · rw [hself g₂ hg₂] at h₂
        exact absurd h₂ (hother hj hji pa h₁ h0).2.2
      · exact h.apart j k g₁ g₂ pa hj hk h₁ h₂ h0
  · have hsum := heldFrames_set hi g
    have hused := hx.used
    have hm := h.used
    have hheld : heldBy g = present x.view := by
      rw [present_view]
      rcases hg with rfl | ⟨rfl, h0⟩
      · rfl
      · rw [present_view] at h0
        exact h0.symm
    rw [present_view (m.node f)] at hused
    change x.used + f.pages.countP (· ≠ 0) = m.used + present x.view at hused
    show x.used = ((m.files.set i g).map heldBy).sum
    omega
  · intro j g' hj
    rcases getElem?_set_cases hj with ⟨-, hg'⟩ | ⟨hji, hj⟩
    · rw [hself g' hg']
      exact hx.clean
    · intro b hb
      exact (byteAt_congr (fun pa hpa h0 => (hother hj hji pa hpa h0).2.1) b).trans
        (h.clean j g' hj b hb)
  · intro j g' hj
    rcases getElem?_set_cases hj with ⟨-, hg'⟩ | ⟨hji, hj⟩
    · rw [hself g' hg']
      exact hx.size
    · exact h.size j g' hj

theorem Sound.arrays_set (ha : Apart (m.node f) x) {g : Option RFile} :
    arrays ⟨x.used, x.limit, x.mm, m.files.set i g⟩ =
      (arrays m).set i (g.map fun g =>
        contents (Node.view ⟨x.used, x.limit, x.mm, g.size, g.mtime, g.ctime, g.pages⟩)) := by
  unfold arrays
  rw [map_set]
  apply ext_getElem?
  intro j
  rw [List.getElem?_set, List.getElem?_set, length_map, length_map]
  by_cases hij : i = j
  · rw [if_pos hij, if_pos hij]
    rfl
  · rw [if_neg hij, if_neg hij, List.getElem?_map, List.getElem?_map]
    rcases hj : m.files[j]? with _ | _ | g'
    · rfl
    · rfl
    · have hbytes := h.others hi ha hj (Ne.symm hij)
      exact congrArg (fun l => some (some l))
        (contents_congr fun pa hpa h0 => (hbytes pa hpa h0).2.1)

/-! ## The operations -/

/-- A write leaves a file that stays within its table and holds the model's bytes. -/
theorem write_leaves (hoff : off < 2 ^ 32) (hlen : src.length < 2 ^ 32) {r : Int}
    (hw : (m.node f).rWrite kmalloc now src off = some (x, r)) : Leaves m f x := by
  obtain ⟨hsim, hown⟩ := rWrite_sim (h.owns i f hi) kmalloc now src off
  obtain ⟨ho, ha⟩ := hown _ hw
  rw [hw, Option.map_some] at hsim
  have hwf := h.wf hi
  have hwf' := rWrite_wf hwf hoff hlen hsim.symm
  have hspec := rWrite_spec kmalloc now (m.node f).view hoff hlen
  rw [← hsim] at hspec
  have hfacts : x.view.limit = (m.node f).view.limit ∧
      x.view.used + present (m.node f).view = (m.node f).view.used + present x.view := by
    generalize hv : x.view = v at hspec
    cases hspec with
    | tooFar => exact ⟨rfl, rfl⟩
    | noTable => exact ⟨rfl, rfl⟩
    | @stored y z k _ _ hl _ _ hs =>
      refine ⟨hs.limit.trans hl.limit, ?_⟩
      have hused := hs.used
      rw [hl.present, hl.used] at hused
      exact hused
  exact ⟨ho, ha, hfacts.1, hwf'.limit, hfacts.2, hwf'.clean, hwf'.size⟩

theorem truncate_leaves (now : Nat) (hlen : len < 2 ^ 32) :
    ∃ x, (m.node f).rTruncate now len = some x ∧ x.view = rTruncate now (m.node f).view len ∧
      Leaves m f x := by
  have hwf := h.wf hi
  obtain ⟨x, h1, h2, h3, h4⟩ := rTruncate_sim (h.owns i f hi) hwf.used h.used_lt now len
  have hwf' : Wf x.view := by
    rw [h2]
    exact rTruncate_wf hwf hlen
  have hlim : x.view.limit = (m.node f).view.limit := by
    rw [h2, rTruncate_eq]
    split_ifs
    · exact (clearTail_counts ..).2
    · rfl
  have hused : x.view.used + present (m.node f).view = (m.node f).view.used + present x.view := by
    rw [h2]
    exact rTruncate_used hwf.used now len
  exact ⟨x, h1, h2, h3, h4, hlim, hwf'.limit, hused, hwf'.clean, hwf'.size⟩

theorem release_leaves :
    ∃ x, (m.node f).freeData 0 = some x ∧ Leaves m f x ∧ present x.view = 0 := by
  have hwf := h.wf hi
  obtain ⟨x, h1, h2, h3, h4⟩ := freeData_sim (h.owns i f hi) hwf.used h.used_lt 0
  have hwf' : Wf x.view := by
    rw [h2]
    exact wf_freeData hwf 0
  have hpres := present_freeData (m.node f).view 0
  rw [drop_zero] at hpres
  have hnone : present x.view = 0 := by
    rw [h2]
    unfold present at hpres ⊢
    omega
  have hused : x.used = m.used - present (m.node f).view := by
    have := congrArg RNode.used h2
    exact this
  have hle := hwf.used
  refine ⟨x, h1, ⟨h3, h4, congrArg RNode.limit h2, hwf'.limit, ?_, hwf'.clean, hwf'.size⟩, hnone⟩
  change present (m.node f).view ≤ m.used at hle
  omega

end

omit h in
/-- A write that meets the condition stays within its table of pages. -/
theorem Meets.inside (hm : Meets m (.write i off src)) (hi : m.files[i]? = some (some f))
    (hsum : off + src.length < 2 ^ 32) {kmalloc : Nat → Bool} {y : RNode}
    (hg : grown kmalloc (m.node f).view off src.length = some y)
    (hl : Longer (m.node f).view y) : ¬Escapes y off src.length := by
  intro he
  obtain ⟨f', hi', -, -, hcond⟩ := hm
  obtain rfl : f = f' := by
    rw [hi] at hi'
    exact Option.some.inj (Option.some.inj hi')
  have hpos := he.1
  have hout := he.2.1
  rcases hcond with h0 | h0 | ⟨hend | hend, -⟩
  · omega
  · omega
  · have hlong := grown_long hpos hend hg
    omega
  · have hlen := hl.length
    rw [show (m.node f).view.pages.length = f.pages.length from length_map _] at hlen
    omega

omit h in
/-- The model has every page that the file has. -/
theorem view_present {q : Nat} (hq : f.pages.getD q 0 ≠ 0) :
    (m.node f).view.pages[q]? = some (some (m.mm.bytes (f.pages.getD q 0 / page))) := by
  rw [view_getElem?]
  show f.pages[q]?.map _ = _
  cases hp : f.pages[q]? with
  | none => simp [getD_eq_getElem?_getD, hp] at hq
  | some pa =>
    rw [getD_eq_of_getElem? hp] at hq ⊢
    rw [Option.map_some, entry_ne_zero hq]
    rfl

omit h in
/-- Where no page can be had for its first byte, it starts within the file. -/
theorem Meets.starts_within (hm : Meets m (.write i off src)) (hi : m.files[i]? = some (some f))
    (hsum : off + src.length < 2 ^ 32) (hz : src.length ≠ 0) {y : RNode}
    (hl : Longer (m.node f).view y) (hpage : y.pages[off / page]? = some none)
    (hav : avail y = 0) : off ≤ f.size := by
  obtain ⟨f', hi', -, -, hcond⟩ := hm
  obtain rfl : f = f' := by
    rw [hi] at hi'
    exact Option.some.inj (Option.some.inj hi')
  rcases hcond with h1 | h1 | ⟨-, h1 | h1 | h1⟩
  · exact absurd h1 hz
  · omega
  · exact h1
  · have hq := view_present (m := m) h1
    have hsame := hl.pages (off / page) (List.getElem?_eq_some_iff.1 hq).1
    rw [hpage, hq] at hsame
    cases hsame
  · unfold avail at hav
    rw [hl.limit, hl.used, hl.frames] at hav
    change min (m.limit - m.used) (free m.mm) = 0 at hav
    omega

/-- What a write that meets the condition comes to. -/
theorem write_spec (kmalloc : Nat → Bool) (now : Nat) (hm : Meets m (.write i off src)) :
    ∃ f x r, m.files[i]? = some (some f) ∧ (m.node f).rWrite kmalloc now src off = some (x, r) ∧
      Leaves m f x ∧
      ((contents x.view = contents (m.node f).view ∧
          (r = -enospc ∨ r = -einval ∧ 2 ^ 32 ≤ off + src.length)) ∨
        ∃ k : Nat, k ≤ src.length ∧ (k = 0 → src.length = 0) ∧ r = k ∧
          contents x.view = overwrite (contents (m.node f).view) off (src.take k)) := by
  obtain ⟨f, hi, hoff, hlen, -⟩ := id hm
  obtain ⟨hsim, -⟩ := rWrite_sim (h.owns i f hi) kmalloc now src off
  have hspec := rWrite_spec kmalloc now (m.node f).view hoff hlen
  cases hw : (m.node f).rWrite kmalloc now src off with
  | none =>
    rw [hw, Option.map_none] at hsim
    rw [← hsim] at hspec
    cases hspec with
    | escaped hsum hg hl he => exact absurd he (hm.inside hi hsum hg hl)
  | some p =>
    obtain ⟨x, r⟩ := p
    have hleaves := write_leaves h hi hoff hlen hw
    rw [hw, Option.map_some] at hsim
    rw [← hsim] at hspec
    refine ⟨f, x, r, hi, hw, hleaves, ?_⟩
    generalize x.view = v at hspec
    generalize hq : some (v, r) = res at hspec
    cases hspec with
    | tooFar hfar =>
      cases hq
      exact .inl ⟨rfl, .inr ⟨rfl, hfar⟩⟩
    | escaped => cases hq
    | noTable =>
      cases hq
      exact .inl ⟨rfl, .inl rfl⟩
    | @stored y z k hsum hg hl he hk hs h0 =>
      obtain ⟨rfl, rfl⟩ := Prod.mk.inj (Option.some.inj hq)
      have hbytes : ∀ j, byteAt z j = if off ≤ j ∧ j < off + k then src.getD (j - off) 0
          else byteAt (m.node f).view j := by
        intro j
        rw [hs.bytes j, hl.bytes j]
      by_cases hz : src.length ≠ 0 ∧ k = 0
      · -- nothing stored: the size stays, since the write starts within the file
        rw [if_pos hz]
        obtain ⟨hpage, hav⟩ := (h0.1 hz.2).resolve_left hz.1
        have hle := hm.starts_within hi hsum hz.1 hl hpage hav
        refine .inl ⟨contents_eq (max_eq_left ?_) fun j => (hbytes j).trans (if_neg (by omega)),
          .inl rfl⟩
        rw [hz.2]
        exact hle
      · rw [if_neg hz, hs.toInt (hl.wf (h.wf hi))]
        exact .inr ⟨k, hk, fun hk0 => by_contra fun hn => hz ⟨hn, hk0⟩, rfl,
          contents_overwrite hk (h.clean i f hi) rfl hbytes⟩

theorem Sound.create (now : Nat) : Sound { m with files := m.files ++ [some (newNode now)] } := by
  have hat : ∀ {j : Nat} {g : RFile}, (m.files ++ [some (newNode now)])[j]? = some (some g) →
      m.files[j]? = some (some g) ∨ g = newNode now := by
    intro j g hj
    rw [List.getElem?_append] at hj
    split_ifs at hj
    · exact .inl hj
    · have := mem_of_getElem? hj
      rw [mem_singleton] at this
      exact .inr (Option.some.inj this)
  refine ⟨?_, ?_, ?_, h.limit, h.quarter, ?_, ?_⟩
  · intro j g hj
    rcases hat hj with hj | rfl
    · exact ⟨(h.owns j g hj).held, (h.owns j g hj).once⟩
    · exact ⟨nofun, fun a b pa ha => by cases ha⟩
  · intro j k g g' pa hj hk hg hg' h0
    rcases hat hj with hj | rfl
    · rcases hat hk with hk | rfl
      · exact h.apart j k g g' pa hj hk hg hg' h0
      · exact absurd hg' not_mem_nil
    · exact absurd hg not_mem_nil
  · show m.used = ((m.files ++ [some (newNode now)]).map heldBy).sum
    rw [map_append, sum_append, h.used]
    rfl
  · intro j g hj
    rcases hat hj with hj | rfl
    · exact h.clean j g hj
    · exact fun b _ => rfl
  · intro j g hj
    rcases hat hj with hj | rfl
    · exact h.size j g hj
    · show (0 : Nat) < 2 ^ 32
      decide

/-- The rest of the kernel leaves the files alone. -/
theorem Sound.elsewhere {mm : Mm} (he : Elsewhere m mm) :
    Sound { m with mm := mm } ∧ arrays { m with mm := mm } = arrays m := by
  refine ⟨⟨?_, h.apart, h.used, h.limit, h.quarter, ?_, h.size⟩, ?_⟩
  · intro j g hj
    exact ⟨fun pa hpa h0 => (he j g hj pa hpa h0).1, (h.owns j g hj).once⟩
  · intro j g hj b hb
    exact (byteAt_congr (fun pa hpa h0 => (he j g hj pa hpa h0).2) b).trans (h.clean j g hj b hb)
  · apply ext_getElem?
    intro j
    unfold arrays
    rw [List.getElem?_map, List.getElem?_map]
    rcases hj : m.files[j]? with _ | _ | g
    · rfl
    · rfl
    · exact congrArg (fun l => some (some l))
        (contents_congr fun pa hpa h0 => (he j g hj pa hpa h0).2)

/-- **An operation** that meets the condition has a result, and it is the model's. -/
theorem perform_model (hm : Meets m op) (kmalloc : Nat → Bool) (now : Nat) :
    ∃ m' r, perform kmalloc now m op = some (m', r) ∧ Sound m' ∧
      Model (arrays m) op (arrays m') r := by
  cases op with
  | write i off src =>
    obtain ⟨f, x, r, hi, hw, hx, hres⟩ := write_spec h kmalloc now hm
    have harr : arrays (m.put i x) = (arrays m).set i (some (contents x.view)) :=
      h.arrays_set hi hx.apart
    refine ⟨m.put i x, .count r, by simp [perform, hi, hw], h.set hi hx (.inl rfl), ?_⟩
    rw [harr]
    rcases hres with ⟨hsame, hr⟩ | ⟨k, hk, h0, rfl, hover⟩
    · have hset : (arrays m).set i (some (contents x.view)) = arrays m := by
        rw [hsame]
        obtain ⟨hlt, hat⟩ := List.getElem?_eq_some_iff.1 (arrays_getElem? hi)
        rw [← hat]
        exact set_getElem_self hlt
      rw [hset]
      rcases hr with rfl | ⟨rfl, hfar⟩
      · exact .refused (arrays_getElem? hi) (.inl rfl)
      · exact .refused (arrays_getElem? hi) (.inr ⟨rfl, hfar⟩)
    · rw [hover]
      exact .write (arrays_getElem? hi) hk h0
  | trunc i len =>
    obtain ⟨f, hi, hlen, hc⟩ := hm
    obtain ⟨x, h1, h2, hx⟩ := truncate_leaves h hi now hlen
    have harr : arrays (m.put i x) = (arrays m).set i (some (contents x.view)) :=
      h.arrays_set hi hx.apart
    refine ⟨m.put i x, .count 0, by simp [perform, hi, h1], h.set hi hx (.inl rfl), ?_⟩
    have hres : contents x.view = resize (contents (m.node f).view) len := by
      rw [h2]
      exact contents_resize (h.clean i f hi) rfl fun j hj => rTruncate_bytes now hlen hc hj
    rw [harr, hres]
    exact .trunc (arrays_getElem? hi)
  | read i off n =>
    obtain ⟨f, hi, hoff, hn⟩ := hm
    refine ⟨m, _, by simp [perform, hi]; rfl, h, ?_⟩
    rw [rRead_sim, rRead_spec (h.size i f hi) hn]
    exact .read (arrays_getElem? hi)
  | create =>
    refine ⟨_, .done, rfl, h.create now, ?_⟩
    have harr : arrays { m with files := m.files ++ [some (newNode now)] } =
        arrays m ++ [some []] := by
      unfold arrays
      rw [map_append]
      rfl
    rw [harr]
    exact .create
  | release i =>
    obtain ⟨f, hi⟩ := hm
    obtain ⟨x, h1, hx, h0⟩ := release_leaves h hi
    refine ⟨⟨x.used, x.limit, x.mm, m.files.set i none⟩, .done, by simp [perform, hi, h1],
      h.set hi hx (.inr ⟨rfl, h0⟩), ?_⟩
    rw [h.arrays_set hi hx.apart]
    exact .release (arrays_getElem? hi)

/-! ## Whole runs -/

/-- With memory and frames enough a write takes all its bytes. -/
theorem write_all (hi : m.files[i]? = some (some f)) (hpos : 0 < src.length)
    (hend : off + src.length ≤ 2 ^ 32 - page) (hk : ∀ n, kmalloc n = true)
    (hlimit : m.used + span off src.length ≤ m.limit) (hfree : span off src.length ≤ free m.mm) :
    ∃ m', perform kmalloc now m (.write i off src) = some (m', .count src.length) := by
  obtain ⟨hoff, hlen⟩ : off < 2 ^ 32 ∧ src.length < 2 ^ 32 := by
    unfold page at hend
    omega
  obtain ⟨hsim, -⟩ := rWrite_sim (h.owns i f hi) kmalloc now src off
  have hspec := rWrite_spec kmalloc now (m.node f).view hoff hlen
  rw [← hsim] at hspec
  generalize hres : Option.map (fun r => (r.1.view, r.2)) ((m.node f).rWrite kmalloc now src off) =
    res at hspec
  cases hspec with
  | tooFar hfar =>
    unfold page at hend
    omega
  | noTable _ hg =>
    unfold grown growPages at hg
    split_ifs at hg with h1
    simp only [hk, if_true, reduceCtorEq] at hg
  | escaped _ hg _ he =>
    have := he.2.1
    have := grown_long hpos hend hg
    omega
  | @stored y z k _ hg hl _ _ hs _ hfull =>
    obtain ⟨⟨x, r⟩, hw, hxr⟩ := Option.map_eq_some_iff.1 hres
    have hav : span off src.length ≤ avail y := by
      unfold avail
      rw [hl.limit, hl.used, hl.frames]
      change _ ≤ min (m.limit - m.used) (free m.mm)
      omega
    have hkn := hfull (grown_long hpos hend hg) hav
    have hr : r = src.length := by
      have := (Prod.mk.inj hxr).2
      rw [if_neg (by omega), hs.toInt (hl.wf (h.wf hi)), hkn] at this
      exact this
    exact ⟨m.put i x, by simp [perform, hi, hw, hr]⟩

end

/-- **The files of a mount are arrays of bytes**, over every run; every operation has a result, so
no page is looked for behind the end of a table; the count of frames is right in every state
reached (`Sound`); and with memory enough a write takes all its bytes. -/
theorem mounted_files_are_arrays {m : Mount} (hs : Sound m) :
    (∀ (m' : Mount) (tr : List (Op × Answer)), Run m tr m' →
      ModelRun (arrays m) tr (arrays m') ∧ Sound m' ∧ m'.used = heldFrames m') ∧
    (∀ (kmalloc : Nat → Bool) (now : Nat) (op : Op), Meets m op →
      ∃ m' r, perform kmalloc now m op = some (m', r)) ∧
    (∀ (kmalloc : Nat → Bool) (now i off : Nat) (f : RFile) (src : List Byte),
      m.files[i]? = some (some f) → 0 < src.length → off + src.length ≤ 2 ^ 32 - page →
      (∀ n, kmalloc n = true) → m.used + span off src.length ≤ m.limit →
      span off src.length ≤ free m.mm →
      ∃ m', perform kmalloc now m (.write i off src) = some (m', .count src.length)) := by
  refine ⟨?_, ?_, ?_⟩
  · intro m' tr hr
    induction hr with
    | nil => exact ⟨.nil, hs, hs.used⟩
    | cons hm hp _ ih =>
      obtain ⟨m₁, r, hp', hs', hmodel⟩ := perform_model hs hm _ _
      rw [hp'] at hp
      cases hp
      obtain ⟨h1, h2⟩ := ih hs'
      exact ⟨.cons hmodel h1, h2⟩
    | elsewhere he _ ih =>
      obtain ⟨hs', harr⟩ := hs.elsewhere he
      rw [← harr]
      exact ih hs'
  · intro kmalloc now op hm
    obtain ⟨m', r, h, -⟩ := perform_model hs hm kmalloc now
    exact ⟨m', r, h⟩
  · intro kmalloc now i off f src hi hpos hend hk hlimit hfree
    exact write_all hs hi hpos hend hk hlimit hfree

/-- A mount with one empty file and four free frames. -/
def smallMount : Mount where
  used := 0
  limit := 4
  mm :=
    { nframes := 4
      used := fun _ => false
      fref := fun _ => 0
      nfree := 4
      fhint := 0
      bytes := fun _ _ => 0
      shared := fun _ _ => none
      freed := []
      kcoins := fun _ => true
      kclock := 0
      lcoins := fun _ => true
      lclock := 0 }
  files := [some (newNode 0)]

theorem smallMount_sound : Sound smallMount := by
  have h : Sound { smallMount with files := [] } :=
    ⟨nofun, nofun, rfl, by decide, by decide, nofun, nofun⟩
  exact h.create 0

/-- The mount and the answer after an operation. -/
def performed (m : Mount) (op : Op) : Mount × Answer :=
  (perform (fun _ => true) 0 m op).getD (m, .done)

theorem perform_performed (h : (perform (fun _ => true) 0 m op).isSome = true) :
    perform (fun _ => true) 0 m op = some (performed m op) := by
  unfold performed
  obtain ⟨p, hp⟩ := Option.isSome_iff_exists.1 h
  rw [hp]
  rfl

/-- Two bytes written into a file, cut to one, filled up to three and read. -/
theorem mounted_files_are_arrays_short : ∃ m' a b c, ModelRun (arrays smallMount)
    [(.write 0 0 [7, 8], a), (.trunc 0 1, b), (.trunc 0 3, c), (.read 0 0 9, .bytes [7, 0, 0])]
    (arrays m') ∧ ∃ m'', perform (fun _ => true) 0 smallMount (.write 0 0 [7, 8]) =
      some (m'', .count 2) := by
  let p₁ := performed smallMount (.write 0 0 [7, 8])
  let p₂ := performed p₁.1 (.trunc 0 1)
  let p₃ := performed p₂.1 (.trunc 0 3)
  have h₁ : Meets smallMount (.write 0 0 [7, 8]) :=
    ⟨newNode 0, rfl, by decide, by decide, .inr (.inr ⟨.inl (by decide), .inl (by decide)⟩)⟩
  have h₂ : Meets p₁.1 (.trunc 0 1) :=
    ⟨⟨2, 0, 0, [0x400000, 0, 0, 0, 0, 0, 0, 0]⟩, by decide +kernel, by decide, .inr (by decide)⟩
  have h₃ : Meets p₂.1 (.trunc 0 3) :=
    ⟨⟨1, 0, 0, [0x400000, 0, 0, 0, 0, 0, 0, 0]⟩, by decide +kernel, by decide, .inl (by decide)⟩
  have h₄ : Meets p₃.1 (.read 0 0 9) :=
    ⟨⟨3, 0, 0, [0x400000, 0, 0, 0, 0, 0, 0, 0]⟩, by decide +kernel, by decide, by decide⟩
  have hread : perform (fun _ => true) 0 p₃.1 (.read 0 0 9) = some (p₃.1, .bytes [7, 0, 0]) := by
    have hans : (performed p₃.1 (.read 0 0 9)).2 = .bytes [7, 0, 0] := by decide +kernel
    rw [← hans]
    exact perform_performed (by decide +kernel)
  obtain ⟨hrun, -, hwrite⟩ := mounted_files_are_arrays smallMount_sound
  exact ⟨_, _, _, _, (hrun _ _ (.cons h₁ (perform_performed (by decide +kernel))
      (.cons h₂ (perform_performed (by decide +kernel))
        (.cons h₃ (perform_performed (by decide +kernel)) (.cons h₄ hread .nil))))).1,
    hwrite _ 0 0 0 (newNode 0) [7, 8] rfl (by decide) (by decide) (fun _ => rfl) (by decide)
      (by decide)⟩

/-- **The number of pages wraps around.**  A byte is written, the file is made as long as it can be
and then one byte shorter: the byte is gone.  And a byte appended to a file of that length is
looked for behind the end of the table. -/
theorem page_count_wraps :
    Sound smallMount ∧
    (let p := performed (performed smallMount (.write 0 0 [7])).1 (.trunc 0 0xFFFFFFFF)
     let q := performed p.1 (.trunc 0 0xFFFFFFFE)
     (performed p.1 (.read 0 0 1)).2 = .bytes [7] ∧ q.2 = .count 0 ∧
       (performed q.1 (.read 0 0 1)).2 = .bytes [0] ∧
       (perform (fun _ => true) 0 q.1 (.write 0 0xFFFFFFFE [7])).isNone) :=
  ⟨smallMount_sound, by decide +kernel⟩

end Tortoise.RamFs
