import Mathlib

/-!
# Writes to the device files

`d_write` and `fb_io` of `src/os/kernel/devfs.c` under `sys_write`, `write_loop` and `do_write` of
`src/os/kernel/file.c`, with `frame_alloc_contig` of `src/os/kernel/mm.c`.

In `d_write` the labels of `null`, `zero`, `random` and `urandom` stand above the one of `fb0`, so
a write to them is a write to the frame buffer.

* `fbIo_absent`: without a frame buffer, `fb_io` takes the bytes and does nothing;
* `sinks_without_effect`: the writes to the four devices are accepted and have no effect exactly
  when there is no frame buffer and none can be set up, and the kernel has memory for a chunk.
-/

namespace Tortoise.Devfs

open List

abbrev Byte := BitVec 8

/-- `CHUNK`. -/
def chunkSize : Nat := 4096

def page : Nat := 4096

def fbSize : Nat := 640 * 480 * 4

def lowMem : Nat := 0x400000

def espipe : Int := 29

def enomem : Int := 12

def einval : Int := 22

/-- The entries of `devs`. -/
inductive Dev where
  | console
  | tty
  | null
  | zero
  | random
  | urandom
  | kmsg
  | disk0
  | disk1
  | fb0
  | kbd
  | consctl
  deriving DecidableEq

def Dev.isSink : Dev → Bool
  | .null | .zero | .random | .urandom => true
  | _ => false

/-- What a write can change: the frame table, memory, the frame buffer's controller, and `rest` for
everything the other drivers keep.  `kmem` says whether `kmalloc` finds a chunk. -/
structure Kernel (W : Type) where
  nframes : Nat
  fbits : Nat → Bool
  fref : Nat → Nat
  nfree : Nat
  mem : Nat → Byte
  fbPresent : Bool
  fbPa : Nat
  fbBase : Nat
  fbOn : Bool
  kmem : Bool
  rest : W

variable {W : Type}

namespace Kernel

variable (k : Kernel W)

/-! ## Frames -/

/-- The inner loop of `frame_alloc_contig`: the free frames from `i` on, at most `n`. -/
def freeRun (i : Nat) : Nat → Nat
  | 0 => 0
  | n + 1 => if k.fbits i then 0 else freeRun (i + 1) n + 1

/-- The search of `frame_alloc_contig`. -/
def contigFrom (n : Nat) : Nat → Nat → Option Nat
  | 0, _ => none
  | fuel + 1, i =>
    if i + n ≤ k.nframes then
      if k.freeRun i n = n then some i else contigFrom n fuel (i + k.freeRun i n + 1)
    else none

/-- The first frame of a free run of `n`. -/
def contig (n : Nat) : Option Nat := k.contigFrom n (k.nframes + 1) 0

/-- `frame_alloc_contig`, where the run begins. -/
def takeFrames (i n : Nat) : Kernel W :=
  { k with fbits := fun j => k.fbits j || (decide (i ≤ j) && decide (j < i + n))
           fref := fun j => if i ≤ j ∧ j < i + n then 1 else k.fref j
           mem := fun a => if lowMem + i * page ≤ a ∧ a < lowMem + (i + n) * page then 0 else k.mem a
           nfree := k.nfree - n }

/-! ## The frame buffer -/

/-- The frame buffer is set up on its first use. -/
def fbSetup : Kernel W :=
  if k.fbPa = 0 ∧ k.fbPresent = true then
    match k.contig (fbSize / page) with
    | some i => { k.takeFrames i (fbSize / page) with
        fbPa := lowMem + i * page, fbBase := lowMem + i * page, fbOn := true }
    | none => k
  else k

/-- Where byte `o` of the frame buffer is, behind `kmap`. -/
def fbCell (o : Nat) : Nat := k.fbPa + o / page * page + o % page

/-- The copy loop of `fb_io`. -/
def fbCopy (off : Nat) (buf : List Byte) : Kernel W :=
  let put (m : Nat → Byte) (i : Nat) := Function.update m (k.fbCell (off + i)) (buf.getD i 0)
  { k with mem := (List.range buf.length).foldl put k.mem }

/-- `fb_io` for a write. -/
def fbIo (off : Nat) (buf : List Byte) : Kernel W × Int :=
  if fbSize ≤ off then (k, 0)
  else
    let buf := buf.take (fbSize - off)
    let k := k.fbSetup
    if k.fbPa = 0 then (k, buf.length) else (k.fbCopy off buf, buf.length)

end Kernel

/-! ## Files -/

/-- An open device file. -/
structure File where
  dev : Dev
  off : Nat

/-- `seekable`, for device files. -/
def File.seekable (f : File) : Bool := f.dev = .disk0 || f.dev = .disk1 || f.dev = .fb0

/-- `if (r > 0 && seekable(f)) f->off += r`. -/
def File.advance (f : File) (r : Int) : File :=
  if 0 < r ∧ f.seekable = true then { f with off := (f.off + r.toNat) % 2 ^ 32 } else f

/-- `sys_lseek`, with the size that `vfs_getattr` finds. -/
def File.sysLseek (f : File) (off : Int) (whence : Nat) (size : Int) : File × Int :=
  if f.seekable = false then (f, -espipe)
  else if 2 < whence then (f, -einval)
  else
    let base := if whence = 0 then 0 else if whence = 1 then (f.off : Int) else size
    if base + off < 0 then (f, -einval) else ({ f with off := (base + off).toNat }, base + off)

/-- A file between its opening and now: reads and writes advance it, seeks move it. -/
inductive File.Opened (d : Dev) : File → Prop
  | new : Opened d ⟨d, 0⟩
  | advance {f : File} (r : Int) : Opened d f → Opened d (f.advance r)
  | lseek {f : File} (off : Int) (whence : Nat) (size : Int) :
      Opened d f → Opened d (f.sysLseek off whence size).1

/-- The write functions of the other drivers: consoles, log, disks. -/
abbrev Drivers (W : Type) := Dev → Kernel W → Nat → List Byte → Kernel W × Int

def dWrite (D : Drivers W) (k : Kernel W) (d : Dev) (off : Nat) (buf : List Byte) :
    Kernel W × Int :=
  match d with
  | .null | .zero | .random | .urandom | .fb0 => k.fbIo off buf
  | .kbd => (k, buf.length)
  | d => D d k off buf

def doWrite (D : Drivers W) (k : Kernel W) (f : File) (buf : List Byte) :
    Kernel W × File × Int :=
  let r := dWrite D k f.dev f.off buf
  (r.1, f.advance r.2, r.2)

/-- `write_loop` with `done` bytes behind it, for at most `fuel` chunks. -/
def writeLoop (D : Drivers W) (text : List Byte) :
    Nat → Nat → Kernel W → File → Kernel W × File × Int
  | 0, done, k, f => (k, f, done)
  | fuel + 1, done, k, f =>
    if text.length ≤ done then (k, f, done)
    else
      let chunk := (text.drop done).take chunkSize
      let r := doWrite D k f chunk
      if r.2.2 < 0 then (r.1, r.2.1, if done = 0 then r.2.2 else done)
      else if r.2.2 < chunk.length then (r.1, r.2.1, done + r.2.2)
      else writeLoop D text fuel (done + r.2.2.toNat) r.1 r.2.1

/-- `sys_write`, for a file open for writing and bytes the process has. -/
def sysWrite (D : Drivers W) (k : Kernel W) (f : File) (text : List Byte) :
    Kernel W × File × Int :=
  if k.kmem then writeLoop D text text.length 0 k f else (k, f, -enomem)

/-! ## Sinks -/

theorem Dev.sink_not_seekable {f : File} (h : f.dev.isSink = true) : f.seekable = false := by
  obtain ⟨d, o⟩ := f
  cases d <;> first | rfl | cases h

theorem File.advance_sink {f : File} (h : f.dev.isSink = true) (r : Int) : f.advance r = f := by
  simp [File.advance, Dev.sink_not_seekable h]

/-- A sink cannot be moved from its start. -/
theorem File.Opened.off_zero {d : Dev} {f : File} (hd : d.isSink = true) (h : f.Opened d) :
    f = ⟨d, 0⟩ := by
  induction h with
  | new => rfl
  | advance r _ ih => rw [ih, File.advance_sink hd]
  | lseek off whence size _ ih => simp [ih, File.sysLseek, Dev.sink_not_seekable (f := ⟨d, 0⟩) hd]

theorem dWrite_sink (D : Drivers W) (k : Kernel W) {d : Dev} (hd : d.isSink = true) (off : Nat)
    (buf : List Byte) : dWrite D k d off buf = k.fbIo off buf := by
  cases d <;> first | rfl | cases hd

/-- There is no frame buffer, and none can be set up. -/
def Kernel.NoFb (k : Kernel W) : Prop :=
  k.fbPa = 0 ∧ (k.fbPresent = false ∨ k.contig (fbSize / page) = none)

theorem Kernel.NoFb.setup {k : Kernel W} (h : k.NoFb) : k.fbSetup = k := by
  unfold Kernel.fbSetup
  rcases h.2 with hp | hc
  · rw [if_neg (by simp [hp])]
  · rw [hc]
    simp

/-- Without a frame buffer nothing happens to the bytes. -/
theorem fbIo_absent {k : Kernel W} (h : k.NoFb) {buf : List Byte} (hb : buf.length ≤ fbSize) :
    k.fbIo 0 buf = (k, (buf.length : Int)) := by
  have hsize : ¬ fbSize ≤ 0 := by decide
  simp only [Kernel.fbIo, h.setup, h.1, if_neg hsize, Nat.sub_zero, take_of_length_le hb,
    if_true]

theorem writeLoop_sink (D : Drivers W) {k : Kernel W} (h : k.NoFb) {d : Dev}
    (hd : d.isSink = true) (text : List Byte) {fuel done : Nat} (hle : done ≤ text.length)
    (hf : text.length - done ≤ fuel) :
    writeLoop D text fuel done k ⟨d, 0⟩ = (k, ⟨d, 0⟩, (text.length : Int)) := by
  induction fuel generalizing done with
  | zero =>
    have hdone : done = text.length := by omega
    rw [writeLoop, hdone]
  | succ fuel ih =>
    unfold writeLoop
    split
    · have hdone : done = text.length := by omega
      rw [hdone]
    · -- one chunk goes through whole
      have hlen : ((text.drop done).take chunkSize).length = min chunkSize (text.length - done) := by
        rw [length_take, length_drop]
      have hfits : chunkSize ≤ fbSize := by decide
      have hchunk : ((text.drop done).take chunkSize).length ≤ fbSize :=
        Nat.le_trans (length_take_le ..) hfits
      have hpos : 0 < chunkSize := by decide
      have hw : doWrite D k ⟨d, 0⟩ ((text.drop done).take chunkSize) =
          (k, ⟨d, 0⟩, (((text.drop done).take chunkSize).length : Int)) := by
        simp only [doWrite, dWrite_sink D k hd, fbIo_absent h hchunk,
          File.advance_sink (f := ⟨d, 0⟩) hd]
      simp only [hw]
      rw [if_neg (by omega), if_neg (Int.lt_irrefl _), Int.toNat_natCast]
      exact ih (by omega) (by omega)

theorem Kernel.fbSetup_pa {k : Kernel W} (h : ¬ k.NoFb) : k.fbSetup.fbPa ≠ 0 := by
  have hlow : 0 < lowMem := by decide
  unfold Kernel.fbSetup
  split
  · rename_i hs
    split
    · simp only
      omega
    · rename_i hc
      exact absurd ⟨hs.1, .inr hc⟩ h
  · rename_i hs
    intro h0
    exact h ⟨h0, .inl (Bool.eq_false_iff.2 fun hp => hs ⟨h0, hp⟩)⟩

/-- One byte to a sink goes to the start of the frame buffer. -/
theorem sysWrite_one (D : Drivers W) {k : Kernel W} (hk : k.kmem = true) (h : ¬ k.NoFb) {d : Dev}
    (hd : d.isSink = true) (b : Byte) :
    (sysWrite D k ⟨d, 0⟩ [b]).1 = k.fbSetup.fbCopy 0 [b] := by
  have hio : k.fbIo 0 [b] = (k.fbSetup.fbCopy 0 [b], 1) := by
    simp only [Kernel.fbIo, if_neg (by decide : ¬ fbSize ≤ 0), if_neg (Kernel.fbSetup_pa h),
      take_of_length_le (by rw [length_singleton]; decide : [b].length ≤ fbSize - 0)]
    rfl
  have hw : doWrite D k ⟨d, 0⟩ [b] = (k.fbSetup.fbCopy 0 [b], ⟨d, 0⟩, 1) := by
    simp only [doWrite, dWrite_sink D k hd, hio, File.advance_sink (f := ⟨d, 0⟩) hd]
  have hchunk : [b].take chunkSize = [b] := rfl
  simp [sysWrite, hk, writeLoop, hchunk, hw]

/-- **Sinks have no effect exactly without a frame buffer.**  Every write to a file open on `null`,
`zero`, `random` or `urandom`, at any point of its history, returns the number of bytes and leaves
the kernel as it was, if and only if `kmalloc` has a chunk and there is no frame buffer. -/
theorem sinks_without_effect (D : Drivers W) (k : Kernel W) (d : Dev) (hd : d.isSink = true) :
    (∀ f, f.Opened d → ∀ text, sysWrite D k f text = (k, f, (text.length : Int))) ↔
      k.kmem = true ∧ k.NoFb := by
  constructor
  · intro h
    have hk : k.kmem = true := by
      by_contra hk
      have h0 := h _ .new []
      rw [sysWrite, if_neg hk] at h0
      have h1 : -enomem = 0 := congrArg (fun r => r.2.2) h0
      exact absurd h1 (by decide)
    refine ⟨hk, ?_⟩
    by_contra hfb
    have hpa : k.fbPa ≠ 0 := by
      have h1 := congrArg (fun r => r.1.fbPa) (h _ .new [0])
      simp only [sysWrite_one D hk hfb hd] at h1
      exact h1 ▸ Kernel.fbSetup_pa hfb
    have hset : k.fbSetup = k := if_neg fun hs => hpa hs.1
    -- the byte is chosen to differ from what the screen shows
    have h1 := congrArg (fun r => r.1.mem k.fbPa) (h _ .new [k.mem k.fbPa + 1])
    simp only [sysWrite_one D hk hfb hd, hset, Kernel.fbCopy, Kernel.fbCell, length_singleton,
      range_one, foldl_cons, foldl_nil, Nat.add_zero, Nat.zero_div, Nat.zero_mul,
      Nat.zero_mod, Function.update_self, getD_cons_zero] at h1
    exact absurd h1 (by bv_omega)
  · rintro ⟨hk, hfb⟩ f hf text
    rw [hf.off_zero hd, sysWrite, if_pos hk]
    exact writeLoop_sink D hfb hd text (Nat.zero_le _) (by omega)

/-- A kernel without a frame buffer. -/
theorem sinks_without_effect_absent :
    sysWrite (fun _ k _ _ => (k, 0)) (⟨8, fun _ => false, fun _ => 0, 8, fun _ => 0, false, 0, 0, false,
      true, ()⟩ : Kernel Unit) ⟨.null, 0⟩ [1, 2] =
      (⟨8, fun _ => false, fun _ => 0, 8, fun _ => 0, false, 0, 0, false, true, ()⟩, ⟨.null, 0⟩, 2) :=
  (sinks_without_effect _ _ .null rfl).2 ⟨rfl, rfl, .inl rfl⟩ _ .new [1, 2]

/-- **A write to `/dev/null` shows on the screen**: its byte becomes the first of the frame
buffer. -/
theorem null_draws :
    (sysWrite (fun _ k _ _ => (k, 0)) (⟨2048, fun _ => false, fun _ => 0, 2048, fun _ => 0, true,
      0x500000, 0x500000, true, true, ()⟩ : Kernel Unit) ⟨.null, 0⟩ [0x41]).1.mem 0x500000 = 0x41 := by
  decide +kernel

end Tortoise.Devfs
