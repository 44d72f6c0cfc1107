import Tortoise.Tfs.Trunc

/-!
# Files are arrays of bytes

What a file system is for: each file is an array of bytes, a write overwrites or extends one of
them, a truncation cuts it or fills it up with zeros, and a read returns part of it.  Every run
of reads, writes and truncations of any files, in any order, follows this model
(`files_are_arrays`), as long as no file is cut to a length in the last block below `2 ^ 32`
(`Wraps`): then all its blocks are freed (`truncation_loses_contents`).
-/

namespace Tortoise.DiskFs

open Function Lib List

/-! ## The model -/

inductive Op
  | write (ino off : Nat) (src : List Byte)
  | trunc (ino len : Nat)
  | read (ino off n : Nat)

inductive Answer
  | count (r : Int)
  | bytes (l : Option (List Byte))

/-- An array of bytes for each file. -/
abbrev Arrays := Nat → List Byte

/-- `l` cut or filled up with zeros to `len` bytes. -/
def resize (l : List Byte) (len : Nat) : List Byte := l.take len ++ List.replicate (len - l.length) 0

/-- What an operation may answer, and what it makes of the arrays.  A write may be cut short and
says how much it took, or it takes nothing and is refused. -/
inductive Model : Arrays → Op → Arrays → Answer → Prop
  | write {f : Arrays} {ino off k : Nat} {src : List Byte} (hk : k ≤ src.length)
      (h0 : k = 0 → src.length = 0) : Model f (.write ino off src)
        (update f ino (overwrite (f ino) off (src.take k))) (.count k)
  | refused {f : Arrays} {ino off : Nat} {src : List Byte} (h : src.length ≠ 0) :
      Model f (.write ino off src) f (.count (-enospc))
  | trunc {f : Arrays} {ino len : Nat} :
      Model f (.trunc ino len) (update f ino (resize (f ino) len)) (.count 0)
  | read {f : Arrays} {ino off n : Nat} :
      Model f (.read ino off n) f (.bytes (some (((f ino).drop off).take n)))

inductive ModelRun : Arrays → List (Op × Answer) → Arrays → Prop
  | nil {f : Arrays} : ModelRun f [] f
  | cons {f f' f'' : Arrays} {op : Op} {a : Answer} {tr : List (Op × Answer)}
      (h : Model f op f' a) (hr : ModelRun f' tr f'') : ModelRun f ((op, a) :: tr) f''

/-! ## The code -/

/-- An operation as the code carries it out. -/
def perform (now : Word) (t : Tfs) : Op → Tfs × Answer
  | .write ino off src => ((writei now t ino src off).1, .count (writei now t ino src off).2)
  | .trunc ino len => ((itrunc now t ino len).1, .count (itrunc now t ino len).2)
  | .read ino off n => (t, .bytes (readi t ino off n))

/-- The arguments are of 32 bits and name a file.  A write does not fail behind the end of the
file for want of its first block, and a file is not cut to a length that wraps. -/
def Meets (t : Tfs) : Op → Prop
  | .write ino off src => Ino t ino ∧ off < 2 ^ 32 ∧ src.length < 2 ^ 32 ∧
      (src.length = 0 ∨ off ≤ size t ino ∨ Fits t (inodes t) ino (off / bsize))
  | .trunc ino len => Ino t ino ∧ len < 2 ^ 32 ∧ (size t ino ≤ len ∨ ¬Wraps len)
  | .read ino off n => Ino t ino ∧ off < 2 ^ 32 ∧ n < 2 ^ 32

inductive Run : Tfs → List (Op × Answer) → Tfs → Prop
  | nil {t : Tfs} : Run t [] t
  | cons {t t'' : Tfs} {now : Word} {op : Op} {tr : List (Op × Answer)} (hm : Meets t op)
      (hr : Run (perform now t op).1 tr t'') : Run t ((op, (perform now t op).2) :: tr) t''

/-- The array of each file of a disk. -/
def arrays (t : Tfs) : Arrays := fun n =>
  if Ino t n then (List.range (size t n)).map (content t (inodes t) n) else []

variable {t t' : Tfs} {ino off n len k : Nat} {src : List Byte} {now : Word} {op : Op}
  {tr : List (Op × Answer)}

theorem arrays_eq (hn : Ino t n) :
    arrays t n = (List.range (size t n)).map (content t (inodes t) n) := if_pos hn

/-- Two disks with the same files but for one. -/
theorem arrays_update (hl : Like t t') {l : List Byte} (hself : arrays t' ino = l)
    (hsize : ∀ n, Ino t n → n ≠ ino → size t' n = size t n)
    (hcont : ∀ n x, n ≠ ino → content t' (inodes t') n x = content t (inodes t) n x) :
    arrays t' = update (arrays t) ino l := by
  funext n
  by_cases hni : n = ino
  · rw [hni, update_self, hself]
  · rw [update_of_ne hni]
    by_cases hn : Ino t n
    · rw [arrays_eq hn, arrays_eq (hl.valid.2 hn), hsize n hn hni]
      exact map_congr_left fun x _ => hcont n x hni
    · unfold arrays
      rw [if_neg hn, if_neg fun h => hn (hl.valid.1 h)]

theorem Stored.arrays (h : Stored t t' ino off src k) (hw : Wf t) (hn : Ino t ino)
    (hk : k ≤ src.length) :
    arrays t' = update (arrays t) ino (overwrite (arrays t ino) off (src.take k)) := by
  refine arrays_update h.like ?_ h.sizes fun n x hni => by rw [h.content n x, if_neg fun h => hni h.1]
  rw [arrays_eq hn, arrays_eq (h.like.valid.2 hn), h.size]
  refine (overwrite_take hk (fun x => ?_) (hw.clean ino hn)).symm
  rw [h.content ino x]
  exact if_congr (and_iff_right rfl) rfl rfl

theorem Truncated.arrays
    (h : Truncated t t' ino len fun x => len < DiskFs.size t ino ∧ (len ≤ x ∨ Wraps len)) (hw : Wf t)
    (hn : Ino t ino) (hc : DiskFs.size t ino ≤ len ∨ ¬Wraps len) :
    arrays t' = update (arrays t) ino (resize (arrays t ino) len) := by
  refine arrays_update h.like ?_ h.sizes fun n x hni => by rw [h.content n x, if_neg fun h => hni h.1]
  rw [arrays_eq hn, arrays_eq (h.like.valid.2 hn), h.size]
  refine (resize_range ?_ ?_).symm
  · intro x hx hm
    rw [h.content ino x, if_neg]
    rintro ⟨-, h1, h2 | h2⟩
    · omega
    · exact hc.elim (fun h => by omega) fun h => h h2
  · intro x hx hm
    rw [h.content ino x]
    split_ifs
    · rfl
    · exact hw.clean ino hn x hm

/-! ## The refinement -/

theorem perform_wf (hw : Wf t) (hm : Meets t op) : Wf (perform now t op).1 := by
  cases op with
  | write ino off src => exact writei_wf hw hm.1 hm.2.1
  | trunc ino len => exact itrunc_wf hw hm.1 hm.2.1
  | read ino off n => exact hw

theorem perform_model (hw : Wf t) (hm : Meets t op) :
    Model (arrays t) op (arrays (perform now t op).1) (perform now t op).2 := by
  cases op with
  | write ino off src =>
    obtain ⟨hn, hoff, -, hc⟩ := hm
    obtain ⟨t', k, h, hk, hst, hzero, -⟩ := writei_spec now src hw.sound hn hoff
    show Model _ _ (arrays (writei now t ino src off).1) (.count (writei now t ino src off).2)
    rw [h]
    simp only
    by_cases hr : src.length ≠ 0 ∧ k = 0
    · -- refused, and so not behind the end
      obtain ⟨h1, rfl⟩ := hr
      rw [if_pos ⟨h1, rfl⟩]
      have hnf := (hzero.1 rfl).resolve_left h1
      have hle : off ≤ size t ino := (hc.resolve_left h1).resolve_right hnf
      have hsame : arrays t' = arrays t := by
        rw [hst.arrays hw hn (Nat.zero_le _)]
        apply update_eq_iff.2
        refine ⟨?_, fun _ _ => rfl⟩
        rw [arrays_eq hn, overwrite_take (Nat.zero_le _) (fun x => (if_neg (by omega)).symm)
          (hw.clean ino hn), Nat.add_zero, max_eq_left hle]
      rw [hsame]
      exact Model.refused h1
    · rw [if_neg hr, hst.arrays hw hn hk]
      refine Model.write hk fun h0 => ?_
      by_contra h1
      exact hr ⟨h1, h0⟩
  | trunc ino len =>
    obtain ⟨hn, hlen, hc⟩ := hm
    obtain ⟨t', h, htr⟩ := itrunc_spec now hw.sound hn hlen
    show Model _ _ (arrays (itrunc now t ino len).1) (.count (itrunc now t ino len).2)
    rw [h]
    simp only
    rw [htr.arrays hw hn hc]
    exact Model.trunc
  | read ino off n =>
    obtain ⟨hn, hoff, hlen⟩ := hm
    show Model _ _ (arrays t) (.bytes (readi t ino off n))
    rw [readi_spec hw.sound hn hoff hlen]
    have h : Model (arrays t) (.read ino off n) (arrays t)
      (.bytes (some (((arrays t ino).drop off).take n))) := Model.read
    rw [arrays_eq hn] at h
    exact h

/-- **Files are arrays of bytes**, over every run, and where there are blocks enough a write takes
all its bytes. -/
theorem files_are_arrays {t : Tfs} (hw : Wf t) :
    (∀ (t' : Tfs) (tr : List (Op × Answer)), Run t tr t' →
      ModelRun (arrays t) tr (arrays t') ∧ Wf t') ∧
    (∀ (now : Word) (ino off : Nat) (src : List Byte), Ino t ino → off < 2 ^ 32 →
      Enough t off src.length → (writei now t ino src off).2 = src.length) := by
  constructor
  · intro t' tr hr
    induction hr with
    | nil => exact ⟨ModelRun.nil, hw⟩
    | cons hm _ ih =>
      obtain ⟨h1, h2⟩ := ih (perform_wf hw hm)
      exact ⟨ModelRun.cons (perform_model hw hm) h1, h2⟩
  · intro now ino off src hn hoff hen
    obtain ⟨t', k, h, -, -, -, hfull⟩ := writei_spec now src hw.sound hn hoff
    have hk := hfull hen
    rw [h, hk]
    exact if_neg fun hc => hc.1 hc.2

/-- Two bytes written into a new file, cut to one, filled up to three and read. -/
theorem files_are_arrays_short : ∃ t' a b c d,
    ModelRun (arrays (smallDisk 8)) [(.write 1 0 [7, 8], a), (.trunc 1 1, b), (.trunc 1 3, c),
      (.read 1 0 9, d)] (arrays t') ∧ (writei 0 (smallDisk 8) 1 [7, 8] 0).2 = 2 := by
  have hw : Wf (smallDisk 8) := smallDisk_wf (by decide) (by decide +kernel)
  have h1 : Meets (smallDisk 8) (.write 1 0 [7, 8]) :=
    ⟨by decide, by decide, by decide, .inr (.inl (by decide))⟩
  have h2 : Meets (perform 0 (smallDisk 8) (.write 1 0 [7, 8])).1 (.trunc 1 1) :=
    ⟨by decide +kernel, by decide, .inr (by decide)⟩
  have h3 : Meets (perform 0 (perform 0 (smallDisk 8) (.write 1 0 [7, 8])).1 (.trunc 1 1)).1
      (.trunc 1 3) := ⟨by decide +kernel, by decide, .inr (by decide)⟩
  have h4 : Meets (perform 0 (perform 0 (perform 0 (smallDisk 8) (.write 1 0 [7, 8])).1
      (.trunc 1 1)).1 (.trunc 1 3)).1 (.read 1 0 9) := ⟨by decide +kernel, by decide, by decide⟩
  obtain ⟨hrun, hwrite⟩ := files_are_arrays hw
  exact ⟨_, _, _, _, _, (hrun _ _ (.cons h1 (.cons h2 (.cons h3 (@Run.cons _ _ 0 _ _ h4 .nil))))).1,
    hwrite 0 1 0 [7, 8] (by decide) (by decide) ⟨by decide, by decide⟩⟩

/-- **A truncation that loses everything.**  A byte is written, the file is made as long as it
can be and then one byte shorter: the byte is gone. -/
theorem truncation_loses_contents :
    Wf (smallDisk 8) ∧
    (let t := (itrunc 0 (writei 0 (smallDisk 8) 1 [7] 0).1 1 0xFFFFFFFF).1
     readi t 1 0 1 = some [7] ∧ size t 1 = 0xFFFFFFFF ∧
       (itrunc 0 t 1 0xFFFFFFFE).2 = 0 ∧ readi (itrunc 0 t 1 0xFFFFFFFE).1 1 0 1 = some [0]) :=
  ⟨smallDisk_wf (by decide) (by decide +kernel), by decide +kernel⟩

end Tortoise.DiskFs
