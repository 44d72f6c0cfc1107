import Tortoise.Tfs.Model

/-!
# The block cache

`cache_get`, `bread`, `bwrite` and `tfs_invalidate` of `src/os/kernel/tfs.c`, and `disk_io` of
`src/os/kernel/devfs.c`, which reads and writes the same disks through the device files.

A disk operation succeeds or fails as `ok` says, besides the test on the sector; one that fails
leaves the sector as it is.  Beside the run, `record` keeps what has last been written successfully,
by the arguments and the results of the operations alone.  The bytes that a raw read returns are
left out.

* `Coherent`: every valid entry is in its set, holds what the disk holds, and is the only one for
  its block;
* `cacheGet_cases`: what a look into the cache does to it;
* `ioLoop_written`: a raw write has written the bytes that it says it has;
* `cache_coherent`: in every state of a run in which no raw write fails after it has written a
  sector, `bread` returns what has last been written;
* `Backs`, `bread_backs`, `bwrite_backs`: with a coherent cache the file system reads and writes
  the blocks of `Tfs.Model`, where the cache is left out.
-/

namespace Tortoise.BlockCache

open Function

abbrev Byte := BitVec 8

abbrev Word := BitVec 32

/-- The 512 bytes of a sector. -/
abbrev Sector := Nat → Byte

def fsSector0 : Word := 1024

def nCache : Nat := 64

def einval : Int := 22

structure CBuf where
  disk : Fin 2
  blk : Word
  used : Word
  valid : Bool
  data : Sector

structure State where
  nsectors : Fin 2 → Word
  sectors : Fin 2 → Word → Sector
  cache : Nat → CBuf
  clock : Word

/-- The disks with one sector written. -/
def setSector (D : Fin 2 → Word → Sector) (d : Fin 2) (sec : Word) (buf : Sector) :
    Fin 2 → Word → Sector :=
  update D d (update (D d) sec buf)

/-- `cache[i].valid && cache[i].blk == blk && cache[i].disk == disk`. -/
def Holds (c : Nat → CBuf) (d : Fin 2) (blk : Word) (i : Nat) : Prop :=
  (c i).valid = true ∧ (c i).blk = blk ∧ (c i).disk = d

instance (c : Nat → CBuf) (d : Fin 2) (blk : Word) (i : Nat) : Decidable (Holds c d blk i) :=
  inferInstanceAs (Decidable (_ ∧ _ ∧ _))

/-- The first entry of the set of a block. -/
def setOf (d : Fin 2) (blk : Word) : Nat :=
  ((blk * 2 + BitVec.ofNat 32 d) % BitVec.ofNat 32 (nCache / 4)).toNat * 4

/-- `done` after `j` rounds of the loop of `disk_io`. -/
def doneAt (off n : Word) : Nat → Word
  | 0 => 0
  | j + 1 =>
    let done := doneAt off n j
    let k := 512 - (off + done) % 512
    done + if n - done < k then n - done else k

/-- `secbuf` with the bytes of round `j` copied into it. -/
def patch (off n : Word) (buf : Nat → Byte) (j : Nat) (old : Sector) : Sector := fun p =>
  let o := ((off + doneAt off n j) % 512).toNat
  if o ≤ p ∧ p < o + (doneAt off n (j + 1) - doneAt off n j).toNat then
    buf ((doneAt off n j).toNat + (p - o))
  else old p

namespace State

variable (s : State)

/-! ## Disks -/

/-- `disk_rw` for a read. -/
def diskRead (ok : Bool) (d : Fin 2) (sec : Word) : Option Sector :=
  if ok = true ∧ sec < s.nsectors d then some (s.sectors d sec) else none

/-- `disk_rw` for a write. -/
def diskWrite (ok : Bool) (d : Fin 2) (sec : Word) (buf : Sector) : Option State :=
  if ok = true ∧ sec < s.nsectors d then
    some { s with sectors := setSector s.sectors d sec buf }
  else none

/-! ## The cache -/

/-- The loop of `cache_get`: the entry of the block, or the victim. -/
def scan (d : Fin 2) (blk : Word) : List Nat → Nat → Bool × Nat
  | [], victim => (false, victim)
  | i :: is, victim =>
    if Holds s.cache d blk i then (true, i)
    else if (s.cache i).valid = false then scan d blk is i
    else if (s.cache victim).valid = true ∧ (s.cache i).used < (s.cache victim).used then
      scan d blk is i
    else scan d blk is victim

def store (i : Nat) (e : CBuf) : State := { s with cache := update s.cache i e }

/-- `++use_clock`. -/
def tick : State := { s with clock := s.clock + 1 }

/-- The victim takes over the block. -/
def fill (v : Nat) (d : Fin 2) (blk : Word) (data : Sector) : State :=
  (s.store v ⟨d, blk, s.clock + 1, true, data⟩).tick

/-- `cache_get`; with `load`, what is not there is read from the disk. -/
def cacheGet (d : Fin 2) (blk : Word) (load : Option Bool) : State × Option Nat :=
  let set := setOf d blk
  let r := s.scan d blk [set, set + 1, set + 2, set + 3] set
  if r.1 then ((s.store r.2 { s.cache r.2 with used := s.clock + 1 }).tick, some r.2)
  else
    match load with
    | none => (s.fill r.2 d blk (s.cache r.2).data, some r.2)
    | some ok =>
      match s.diskRead ok d (fsSector0 + blk) with
      | none => (s.store r.2 { s.cache r.2 with valid := false }, none)
      | some data => (s.fill r.2 d blk data, some r.2)

def bread (d : Fin 2) (blk : Word) (ok : Bool) : State × Option Sector :=
  let r := s.cacheGet d blk (some ok)
  (r.1, r.2.map fun i => (r.1.cache i).data)

def bwrite (d : Fin 2) (blk : Word) (buf : Sector) (ok : Bool) : State × Bool :=
  match s.cacheGet d blk none with
  | (t, none) => (t, false)
  | (t, some i) =>
    let t := t.store i { t.cache i with data := buf }
    match t.diskWrite ok d (fsSector0 + blk) buf with
    | some u => (u, true)
    | none => (t.store i { t.cache i with valid := false }, false)

def tfsInvalidate (d : Fin 2) : State :=
  { s with cache := fun i => if (s.cache i).disk = d then { s.cache i with valid := false }
                             else s.cache i }

/-! ## Raw transfers -/

/-- The loop of `disk_io` from round `j` on, and whether it came to its end. -/
def ioLoop (d : Fin 2) (write : Option (Nat → Byte)) (off n : Word) (ok : Nat → Bool × Bool) :
    Nat → Nat → State → State × Bool × Word
  | 0, j, s => (s, true, doneAt off n j)
  | fuel + 1, j, s =>
    if n ≤ doneAt off n j then (s, true, doneAt off n j)
    else
      match s.diskRead (ok j).1 d ((off + doneAt off n j) / 512) with
      | none => (s, false, doneAt off n j)
      | some old =>
        match write with
        | none => ioLoop d write off n ok fuel (j + 1) s
        | some buf =>
          match s.diskWrite (ok j).2 d ((off + doneAt off n j) / 512) (patch off n buf j old) with
          | none => (s, false, doneAt off n j)
          | some t => ioLoop d write off n ok fuel (j + 1) t

/-- How much of a raw transfer lies on the disk. -/
def clip (d : Fin 2) (off n : Word) : Word :=
  if s.nsectors d * 512 < off + n then s.nsectors d * 512 - off else n

def diskIo (d : Fin 2) (write : Option (Nat → Byte)) (off n : Word) (ok : Nat → Bool × Bool) :
    State × Int :=
  if s.nsectors d * 512 ≤ off then (s, 0)
  else
    let n := s.clip d off n
    let r := ioLoop d write off n ok n.toNat 0 s
    if r.2.1 then (r.1.tfsInvalidate d, r.2.2.toInt)
    else (r.1, if r.2.2 = 0 then -einval else r.2.2.toInt)

end State

/-! ## Runs -/

inductive Op where
  | bread (d : Fin 2) (blk : Word) (ok : Bool)
  | bwrite (d : Fin 2) (blk : Word) (buf : Sector) (ok : Bool)
  /-- `sys_read` and `sys_write` hand over `CHUNK` bytes at most. -/
  | raw (d : Fin 2) (write : Option (Nat → Byte)) (off : Word) (n : Fin 4097)
    (ok : Nat → Bool × Bool)
  | invalidate (d : Fin 2)

def State.step (s : State) : Op → State
  | .bread d blk ok => (s.bread d blk ok).1
  | .bwrite d blk buf ok => (s.bwrite d blk buf ok).1
  | .raw d write off n ok => (s.diskIo d write off (.ofNat 32 n) ok).1
  | .invalidate d => s.tfsInvalidate d

/-- The condition on a step: no round of a raw write but the first one fails. -/
def State.Meets (s : State) : Op → Prop
  | .raw d (some _) off n ok =>
    let n := s.clip d off (.ofNat 32 n)
    ∀ j, 0 < j → doneAt off n j < n →
      (ok j).1 = true ∧ (ok j).2 = true ∧ (off + doneAt off n j) / 512 < s.nsectors d
  | _ => True

/-- The disks with the first `k` bytes of `buf` at the byte `off`. -/
def written (D : Fin 2 → Word → Sector) (d : Fin 2) (off : Word) (k : Nat) (buf : Nat → Byte) :
    Fin 2 → Word → Sector :=
  update D d fun sec p =>
    let i := (sec * 512 + .ofNat 32 p - off).toNat
    if sec.toNat < 0x800000 ∧ p < 512 ∧ i < k then buf i else D d sec p

/-- What has last been written, by what the operation returns. -/
def record (L : Fin 2 → Word → Sector) (s : State) : Op → Fin 2 → Word → Sector
  | .bwrite d blk buf ok =>
    if (s.bwrite d blk buf ok).2 then setSector L d (fsSector0 + blk) buf else L
  | .raw d (some buf) off n ok =>
    written L d off (s.diskIo d (some buf) off (.ofNat 32 n) ok).2.toNat buf
  | _ => L

/-- The states that runs of such steps reach, from an empty cache and any disks, with the record of
what has been written. -/
inductive Reach : State → (Fin 2 → Word → Sector) → Prop
  | init (s : State) (h : ∀ i, (s.cache i).valid = false) : Reach s s.sectors
  | step {s : State} {L : Fin 2 → Word → Sector} (op : Op) (h : Reach s L) (hm : s.Meets op) :
    Reach (s.step op) (record L s op)

/-! ## Coherence -/

/-- Entry `i` belongs to the set of the block. -/
def InSet (d : Fin 2) (blk : Word) (i : Nat) : Prop := setOf d blk ≤ i ∧ i < setOf d blk + 4

/-- The cache `c` agrees with the disks `D`. -/
structure Coherent (c : Nat → CBuf) (D : Fin 2 → Word → Sector) : Prop where
  home : ∀ i, (c i).valid = true → InSet (c i).disk (c i).blk i
  data : ∀ i, (c i).valid = true → (c i).data = D (c i).disk (fsSector0 + (c i).blk)
  unique : ∀ i j d blk, Holds c d blk i → Holds c d blk j → i = j

variable {c : Nat → CBuf} {D D' : Fin 2 → Word → Sector} {s : State} {d : Fin 2} {blk : Word}
  {i : Nat}

/-- One entry changes, and perhaps sectors that the other entries are not about; the new entry is
not valid, or is right and the only one for its block. -/
theorem Coherent.change (h : Coherent c D) {e : CBuf}
    (hD : ∀ j, j ≠ i → (c j).valid = true →
      D' (c j).disk (fsSector0 + (c j).blk) = D (c j).disk (fsSector0 + (c j).blk))
    (he : e.valid = true → InSet e.disk e.blk i ∧ e.data = D' e.disk (fsSector0 + e.blk) ∧
      ∀ j, j ≠ i → ¬ Holds c e.disk e.blk j) : Coherent (update c i e) D' := by
  constructor
  · intro j hj
    rcases eq_or_ne j i with rfl | hji
    · rw [update_self] at hj ⊢
      exact (he hj).1
    · rw [update_of_ne hji] at hj ⊢
      exact h.home j hj
  · intro j hj
    rcases eq_or_ne j i with rfl | hji
    · rw [update_self] at hj ⊢
      exact (he hj).2.1
    · rw [update_of_ne hji] at hj ⊢
      exact (h.data j hj).trans (hD j hji hj).symm
  · intro j k d blk
    have hu := h.unique j k d blk
    simp only [Holds, update_apply] at he hu ⊢
    grind

theorem Coherent.drop (h : Coherent c D) {e : CBuf} (he : e.valid = false) :
    Coherent (update c i e) D :=
  h.change (fun _ _ _ => rfl) fun hv => absurd hv (he ▸ Bool.false_ne_true)

theorem setSector_self (D : Fin 2 → Word → Sector) (d : Fin 2) (sec : Word) (buf : Sector) :
    setSector D d sec buf d sec = buf := by
  simp [setSector]

/-- The entry of a block and its sector change together. -/
theorem Coherent.replace (h : Coherent c D) (hin : InSet d blk i)
    (hm : ∀ j, j ≠ i → ¬ Holds c d blk j) {e : CBuf} (hd : e.disk = d) (hb : e.blk = blk) :
    Coherent (update c i e) (setSector D d (fsSector0 + blk) e.data) := by
  subst hd hb
  refine h.change (fun j hj hv => ?_) fun _ => ⟨hin, (setSector_self ..).symm, hm⟩
  by_cases hd : (c j).disk = e.disk
  · have hb : fsSector0 + (c j).blk ≠ fsSector0 + e.blk := fun heq => hm j hj ⟨hv, by bv_omega, hd⟩
    rw [setSector, hd, update_self, update_of_ne hb]
  · rw [setSector, update_of_ne hd]

/-! ## A look into the cache -/

theorem scan_spec (s : State) (d : Fin 2) (blk : Word) (is : List Nat) (victim : Nat) :
    ((s.scan d blk is victim).1 = true → Holds s.cache d blk (s.scan d blk is victim).2) ∧
    ((s.scan d blk is victim).1 = false → (∀ i ∈ is, ¬ Holds s.cache d blk i) ∧
      ((s.scan d blk is victim).2 = victim ∨ (s.scan d blk is victim).2 ∈ is)) := by
  induction is generalizing victim with
  | nil => simp [State.scan]
  | cons i is ih =>
    have hi := ih i
    have hv := ih victim
    unfold State.scan
    grind

/-- **What `cache_get` does**: it finds the entry, or takes a victim from a set without the
block. -/
theorem cacheGet_cases (h : Coherent s.cache D) (d : Fin 2) (blk : Word) (load : Option Bool) :
    (∃ i, Holds s.cache d blk i ∧ s.cacheGet d blk load =
      ((s.store i { s.cache i with used := s.clock + 1 }).tick, some i)) ∨
    ∃ v, InSet d blk v ∧ (∀ j, ¬ Holds s.cache d blk j) ∧ s.cacheGet d blk load =
      match load with
      | none => (s.fill v d blk (s.cache v).data, some v)
      | some ok =>
        match s.diskRead ok d (fsSector0 + blk) with
        | none => (s.store v { s.cache v with valid := false }, none)
        | some data => (s.fill v d blk data, some v) := by
  obtain ⟨hit, miss⟩ := scan_spec s d blk
    [setOf d blk, setOf d blk + 1, setOf d blk + 2, setOf d blk + 3] (setOf d blk)
  unfold State.cacheGet
  simp only
  split
  · rename_i hr
    exact .inl ⟨_, hit hr, rfl⟩
  · rename_i hr
    obtain ⟨hnone, hv⟩ := miss (Bool.eq_false_iff.2 hr)
    refine .inr ⟨_, ?_, fun j hj => hnone j ?_ hj, rfl⟩
    · unfold InSet
      simp only [List.mem_cons, List.not_mem_nil, or_false] at hv
      omega
    · -- a valid entry for the block would be in its set
      have hset := h.home j hj.1
      rw [hj.2.1, hj.2.2] at hset
      unfold InSet at hset
      simp only [List.mem_cons, List.not_mem_nil, or_false]
      omega

/-- Without loading, some entry takes the block, and no other has it. -/
theorem cacheGet_none (h : Coherent s.cache D) (d : Fin 2) (blk : Word) :
    ∃ i t e, s.cacheGet d blk none = (t, some i) ∧ t.cache = update s.cache i e ∧
      t.sectors = s.sectors ∧ t.nsectors = s.nsectors ∧ e.disk = d ∧ e.blk = blk ∧ InSet d blk i ∧
      ∀ j, j ≠ i → ¬ Holds s.cache d blk j := by
  rcases cacheGet_cases h d blk none with ⟨i, hi, hr⟩ | ⟨v, hv, hm, hr⟩
  · have hset := h.home i hi.1
    rw [hi.2.1, hi.2.2] at hset
    exact ⟨i, _, _, hr, rfl, rfl, rfl, hi.2.2, hi.2.1, hset,
      fun j hj hh => hj (h.unique j i _ _ hh hi)⟩
  · exact ⟨v, _, _, hr, rfl, rfl, rfl, rfl, rfl, hv, fun j _ => hm j⟩

/-! ## The operations -/

/-- **`bread` keeps the cache coherent, and what it returns is on the disk.** -/
theorem bread_coherent (h : Coherent s.cache s.sectors) (d : Fin 2) (blk : Word) (ok : Bool) :
    Coherent (s.bread d blk ok).1.cache (s.bread d blk ok).1.sectors ∧
      ∀ buf, (s.bread d blk ok).2 = some buf → buf = s.sectors d (fsSector0 + blk) := by
  unfold State.bread
  rcases cacheGet_cases h d blk (some ok) with ⟨i, hi, hr⟩ | ⟨v, hv, hm, hr⟩
  · rw [hr]
    refine ⟨h.change (fun _ _ _ => rfl) fun _ => ⟨h.home i hi.1, h.data i hi.1, fun j hj hh =>
      hj (h.unique j i _ _ hh ⟨hi.1, rfl, rfl⟩)⟩, ?_⟩
    rintro buf ⟨⟩
    have hdata := h.data i hi.1
    rw [hi.2.1, hi.2.2] at hdata
    simp [State.store, State.tick, hdata]
  · rw [hr]
    dsimp only
    cases hd : s.diskRead ok d (fsSector0 + blk) with
    | none => exact ⟨h.drop rfl, fun _ hb => by cases hb⟩
    | some data =>
      obtain rfl : s.sectors d (fsSector0 + blk) = data := by
        unfold State.diskRead at hd
        grind
      refine ⟨h.change (fun _ _ _ => rfl) fun _ => ⟨hv, rfl, fun j _ => hm j⟩, ?_⟩
      rintro buf ⟨⟩
      simp [State.fill, State.store, State.tick]

/-- **`bwrite` keeps the cache coherent, and the disk has its block just if it says so.** -/
theorem bwrite_coherent (h : Coherent s.cache s.sectors) (d : Fin 2) (blk : Word) (buf : Sector)
    (ok : Bool) :
    ∃ t done, s.bwrite d blk buf ok = (t, done) ∧ Coherent t.cache t.sectors ∧
      t.sectors = (if done then setSector s.sectors d (fsSector0 + blk) buf else s.sectors) ∧
      t.nsectors = s.nsectors ∧
      (done = true ↔ ok = true ∧ fsSector0 + blk < s.nsectors d) := by
  obtain ⟨i, t, e, hget, hc, hs, hns, hd, hb, hin, hm⟩ := cacheGet_none h d blk
  have hei : t.cache i = e := by rw [hc, update_self]
  unfold State.bwrite State.diskWrite
  rw [hget]
  dsimp only [State.store]
  by_cases hok : ok = true ∧ fsSector0 + blk < t.nsectors d
  · rw [if_pos hok]
    refine ⟨_, true, rfl, ?_⟩
    have hrep := h.replace hin hm (e := { e with data := buf }) hd hb
    dsimp only
    rw [hei, hc, hs, update_idem]
    exact ⟨hrep, rfl, hns, fun _ => hns ▸ hok, fun _ => rfl⟩
  · rw [if_neg hok]
    refine ⟨_, false, rfl, ?_⟩
    dsimp only
    rw [hc, hs, update_idem, update_idem]
    exact ⟨h.drop rfl, rfl, hns, (absurd · Bool.false_ne_true), fun hh => absurd (hns ▸ hh) hok⟩

/-- A `bread` leaves the disks alone. -/
theorem bread_frame (h : Coherent s.cache s.sectors) (d : Fin 2) (blk : Word) (ok : Bool) :
    (s.bread d blk ok).1.sectors = s.sectors ∧ (s.bread d blk ok).1.nsectors = s.nsectors := by
  unfold State.bread
  rcases cacheGet_cases h d blk (some ok) with ⟨i, -, hr⟩ | ⟨v, -, -, hr⟩
  · rw [hr]
    exact ⟨rfl, rfl⟩
  · rw [hr]
    dsimp only
    split <;> exact ⟨rfl, rfl⟩

/-- A `bread` whose transfer would succeed returns the block. -/
theorem bread_some (h : Coherent s.cache s.sectors) {ok : Bool}
    (hok : ok = true ∧ fsSector0 + blk < s.nsectors d) :
    (s.bread d blk ok).2 = some (s.sectors d (fsSector0 + blk)) := by
  have hsome : (s.bread d blk ok).2.isSome := by
    unfold State.bread
    rcases cacheGet_cases h d blk (some ok) with ⟨i, -, hr⟩ | ⟨v, -, -, hr⟩
    · rw [hr]
      rfl
    · rw [hr]
      dsimp only [State.diskRead]
      rw [if_pos hok]
      rfl
  obtain ⟨buf, hbuf⟩ := Option.isSome_iff_exists.1 hsome
  rw [hbuf, (bread_coherent h d blk ok).2 buf hbuf]

theorem tfsInvalidate_coherent (h : ∀ d', d' ≠ d → D' d' = D d') (hc : Coherent s.cache D)
    (hs : s.sectors = D') :
    Coherent (s.tfsInvalidate d).cache (s.tfsInvalidate d).sectors := by
  have hat (i : Nat) (hv : ((s.tfsInvalidate d).cache i).valid = true) :
      (s.tfsInvalidate d).cache i = s.cache i ∧ (s.cache i).disk ≠ d := by
    unfold State.tfsInvalidate at hv ⊢
    grind
  subst hs
  constructor
  · intro i hi
    obtain ⟨he, -⟩ := hat i hi
    rw [he] at hi ⊢
    exact hc.home i hi
  · intro i hi
    obtain ⟨he, hd⟩ := hat i hi
    rw [he] at hi ⊢
    exact (hc.data i hi).trans (congrFun (h _ hd).symm _)
  · intro i j d' blk hi hj
    refine hc.unique i j d' blk ?_ ?_
    · have he := (hat i hi.1).1
      rwa [Holds, he] at hi
    · have he := (hat j hj.1).1
      rwa [Holds, he] at hj

/-- Every round makes progress and stays within the transfer. -/
theorem doneAt_spec (off n : Word) (j : Nat) :
    min j n.toNat ≤ (doneAt off n j).toNat ∧ doneAt off n j ≤ n := by
  induction j with
  | zero => simp [doneAt, BitVec.le_def]
  | succ j ih =>
    have hm : ((off + doneAt off n j) % 512).toNat < 512 := Nat.mod_lt _ (by decide)
    simp only [doneAt]
    generalize (off + doneAt off n j) % 512 = r at hm ⊢
    split <;> bv_omega

/-- The bytes of one round, by sector and place, and by their number in the transfer. -/
theorem round_place {off done done' : Word} (sec : Word) (p : Nat) (hle : done ≤ done')
    (hk : (done' - done).toNat + ((off + done) % 512).toNat ≤ 512) :
    let o := ((off + done) % 512).toNat
    let i := (sec * 512 + .ofNat 32 p - off).toNat
    (sec = (off + done) / 512 ∧ o ≤ p ∧ p < o + (done' - done).toNat ↔
      sec.toNat < 0x800000 ∧ p < 512 ∧ i < done'.toNat ∧ done.toNat ≤ i) ∧
    (sec.toNat < 0x800000 ∧ p < 512 ∧ i < done'.toNat ∧ done.toNat ≤ i →
      i = done.toNat + (p - o)) := by
  intro o i
  have hsec : sec = (off + done) / 512 ↔ sec.toNat = (off + done).toNat / 512 := by
    rw [← BitVec.toNat_inj, BitVec.toNat_udiv]
    rfl
  have ho : o = (off + done).toNat % 512 := rfl
  have hi : i = (sec.toNat * 512 + p + (2 ^ 32 - off.toNat)) % 2 ^ 32 := by
    simp only [i, BitVec.toNat_sub, BitVec.toNat_add, BitVec.toNat_mul, BitVec.toNat_ofNat]
    change (2 ^ 32 - off.toNat + (sec.toNat * 512 % 2 ^ 32 + p % 2 ^ 32) % 2 ^ 32) % 2 ^ 32 = _
    omega
  have hsub : (done' - done).toNat = done'.toNat - done.toNat := BitVec.toNat_sub_of_le hle
  have hle : done.toNat ≤ done'.toNat := hle
  change _ + o ≤ 512 at hk
  have h1 := off.isLt
  have h2 := done.isLt
  have h3 := done'.isLt
  rw [hsec]
  rw [hsub] at hk ⊢
  rw [BitVec.toNat_add] at ho ⊢
  clear_value o i
  omega

theorem setSector_patch (W : Fin 2 → Word → Sector) (d : Fin 2) (off n : Word) (j : Nat)
    (buf : Nat → Byte) (sec : Word) (p : Nat) :
    setSector W d ((off + doneAt off n j) / 512)
      (patch off n buf j (W d ((off + doneAt off n j) / 512))) d sec p =
    let o := ((off + doneAt off n j) % 512).toNat
    if sec = (off + doneAt off n j) / 512 ∧ o ≤ p ∧
      p < o + (doneAt off n (j + 1) - doneAt off n j).toNat then
      buf ((doneAt off n j).toNat + (p - o))
    else W d sec p := by
  rw [setSector, update_self]
  by_cases h : sec = (off + doneAt off n j) / 512
  · rw [h, update_self]
    simp only [patch, true_and]
  · rw [update_of_ne h]
    exact (if_neg fun h' => h h'.1).symm

/-- One round more: the sector that it patches. -/
theorem written_succ (D : Fin 2 → Word → Sector) {off n : Word} {j : Nat} (buf : Nat → Byte)
    (hj : doneAt off n j < n) :
    let W := written D d off (doneAt off n j).toNat buf
    setSector W d ((off + doneAt off n j) / 512)
      (patch off n buf j (W d ((off + doneAt off n j) / 512))) =
      written D d off (doneAt off n (j + 1)).toNat buf := by
  obtain ⟨hle, hk⟩ : doneAt off n j ≤ doneAt off n (j + 1) ∧
      (doneAt off n (j + 1) - doneAt off n j).toNat +
        ((off + doneAt off n j) % 512).toNat ≤ 512 := by
    have hm : ((off + doneAt off n j) % 512).toNat < 512 := Nat.mod_lt _ (by decide)
    rw [doneAt]
    generalize (off + doneAt off n j) % 512 = r at hm ⊢
    split <;> bv_omega
  intro W
  funext d' sec p
  by_cases hd : d' = d
  · subst hd
    obtain ⟨hplace, hnumber⟩ := round_place sec p hle hk
    have hnat : (doneAt off n j).toNat ≤ (doneAt off n (j + 1)).toNat := hle
    rw [setSector_patch, if_congr hplace rfl rfl]
    simp only [W, written, update_self]
    split
    · next hin => rw [if_pos ⟨hin.1, hin.2.1, hin.2.2.1⟩, hnumber hin]
    · refine if_congr ?_ rfl rfl
      omega
  · simp only [W, setSector, written, update_of_ne hd]

/-- **A raw write has written what it says.**  By induction on the rounds. -/
theorem ioLoop_written {D : Fin 2 → Word → Sector} {buf : Nat → Byte} {off n : Word}
    (ok : Nat → Bool × Bool) (fuel : Nat) {j : Nat} (s : State)
    (hs : s.sectors = written D d off (doneAt off n j).toNat buf) :
    (State.ioLoop d (some buf) off n ok fuel j s).1.sectors =
        written D d off (State.ioLoop d (some buf) off n ok fuel j s).2.2.toNat buf ∧
      (State.ioLoop d (some buf) off n ok fuel j s).2.2 ≤ n := by
  induction fuel generalizing j s with
  | zero => exact ⟨hs, (doneAt_spec off n j).2⟩
  | succ fuel ih =>
    have hdone := (doneAt_spec off n j).2
    unfold State.ioLoop
    split
    · exact ⟨hs, hdone⟩
    · rename_i hn
      split
      · exact ⟨hs, hdone⟩
      · rename_i old hr
        obtain rfl : s.sectors d ((off + doneAt off n j) / 512) = old := by
          unfold State.diskRead at hr
          split at hr
          · exact Option.some_inj.1 hr
          · cases hr
        dsimp only
        split
        · exact ⟨hs, hdone⟩
        · rename_i t ht
          unfold State.diskWrite at ht
          split at ht
          · cases ht
            refine ih { s with sectors := _ } ?_
            rw [← written_succ D buf (by bv_omega), ← hs]
          · cases ht

/-- The loop of a raw transfer leaves the cache and the other disk alone. -/
theorem ioLoop_frame (write : Option (Nat → Byte)) (off n : Word) (ok : Nat → Bool × Bool)
    (fuel j : Nat) (s : State) :
    (State.ioLoop d write off n ok fuel j s).1.cache = s.cache ∧
      ∀ d', d' ≠ d → (State.ioLoop d write off n ok fuel j s).1.sectors d' = s.sectors d' := by
  induction fuel generalizing j s with
  | zero => exact ⟨rfl, fun _ _ => rfl⟩
  | succ fuel ih =>
    unfold State.ioLoop
    split
    · exact ⟨rfl, fun _ _ => rfl⟩
    · split
      · exact ⟨rfl, fun _ _ => rfl⟩
      · split
        · exact ih _ _
        · split
          · exact ⟨rfl, fun _ _ => rfl⟩
          · rename_i t ht
            unfold State.diskWrite at ht
            split at ht
            · cases ht
              obtain ⟨hc, hd⟩ := ih (j + 1)
                { s with sectors := setSector s.sectors d _ (patch off n _ j _) }
              exact ⟨hc, fun d' hd' => (hd d' hd').trans (update_of_ne hd' ..)⟩
            · cases ht

theorem ioLoop_read (off n : Word) (ok : Nat → Bool × Bool) (fuel j : Nat) (s : State) :
    (State.ioLoop d none off n ok fuel j s).1 = s := by
  induction fuel generalizing j with
  | zero => rfl
  | succ fuel ih =>
    unfold State.ioLoop
    split
    · rfl
    · split
      · rfl
      · exact ih _

/-- A raw write whose later rounds succeed comes to its end once it is under way. -/
theorem ioLoop_ends {buf : Nat → Byte} {off n : Word} {ok : Nat → Bool × Bool} {m : Word}
    (hok : ∀ j, 0 < j → doneAt off n j < n →
      (ok j).1 = true ∧ (ok j).2 = true ∧ (off + doneAt off n j) / 512 < m)
    (fuel : Nat) {j : Nat} (hj : 0 < j) (s : State) (hm : s.nsectors d = m) :
    (State.ioLoop d (some buf) off n ok fuel j s).2.1 = true := by
  induction fuel generalizing j s with
  | zero => rfl
  | succ fuel ih =>
    unfold State.ioLoop
    split
    · rfl
    · rename_i hn
      obtain ⟨h1, h2, h3⟩ := hok j hj (by bv_omega)
      rw [State.diskRead, if_pos ⟨h1, hm ▸ h3⟩]
      dsimp only
      rw [State.diskWrite, if_pos ⟨h2, hm ▸ h3⟩]
      exact ih (Nat.succ_pos j) _ hm

/-- So a raw write that fails has changed nothing. -/
theorem ioLoop_fails {buf : Nat → Byte} {off n : Word} {ok : Nat → Bool × Bool}
    (hok : ∀ j, 0 < j → doneAt off n j < n →
      (ok j).1 = true ∧ (ok j).2 = true ∧ (off + doneAt off n j) / 512 < s.nsectors d)
    (fuel : Nat) (h : (State.ioLoop d (some buf) off n ok fuel 0 s).2.1 ≠ true) :
    (State.ioLoop d (some buf) off n ok fuel 0 s).1 = s := by
  cases fuel with
  | zero => rfl
  | succ fuel =>
    unfold State.ioLoop at h ⊢
    split
    · rfl
    · rename_i hn
      rw [if_neg hn] at h
      split
      · rfl
      · rename_i old hr
        rw [hr] at h
        dsimp only at h ⊢
        split
        · rfl
        · rename_i t ht
          rw [ht] at h
          unfold State.diskWrite at ht
          split at ht
          · cases ht
            refine absurd ?_ h
            exact ioLoop_ends hok fuel (Nat.succ_pos 0) _ rfl
          · cases ht

theorem diskIo_coherent (h : Coherent s.cache s.sectors) (write : Option (Nat → Byte))
    (off : Word) (n : Fin 4097) (ok : Nat → Bool × Bool) (hm : s.Meets (.raw d write off n ok)) :
    Coherent (s.diskIo d write off (.ofNat 32 n) ok).1.cache
      (s.diskIo d write off (.ofNat 32 n) ok).1.sectors := by
  unfold State.diskIo
  split
  · exact h
  · dsimp only
    obtain ⟨hc, hd⟩ := ioLoop_frame (d := d) write off (s.clip d off (.ofNat 32 n)) ok
      (s.clip d off (.ofNat 32 n)).toNat 0 s
    split
    · exact tfsInvalidate_coherent hd (hc ▸ h) rfl
    · rename_i hend
      cases write with
      | none => rwa [ioLoop_read]
      | some buf => rwa [ioLoop_fails hm _ hend]

theorem diskIo_written (buf : Nat → Byte) (off : Word) (n : Fin 4097) (ok : Nat → Bool × Bool) :
    (s.diskIo d (some buf) off (.ofNat 32 n) ok).1.sectors =
      written s.sectors d off (s.diskIo d (some buf) off (.ofNat 32 n) ok).2.toNat buf := by
  have hnone : written s.sectors d off 0 buf = s.sectors := by
    simp [written]
  unfold State.diskIo
  split
  · exact hnone.symm
  · dsimp only
    generalize hclip : s.clip d off (.ofNat 32 n) = m
    have hm : m.toNat ≤ 4096 := by
      have := n.isLt
      unfold State.clip at hclip
      split at hclip <;> bv_omega
    have hs : s.sectors = written s.sectors d off (doneAt off m 0).toNat buf := hnone.symm
    obtain ⟨hw, hle⟩ := ioLoop_written ok m.toNat s hs
    generalize State.ioLoop d (some buf) off m ok m.toNat 0 s = r at hw hle ⊢
    have hint : r.2.2.toInt.toNat = r.2.2.toNat := by
      rw [BitVec.toInt_eq_toNat_of_lt (by bv_omega), Int.toNat_natCast]
    split
    · rw [hint]
      exact hw
    · split
      · next h0 =>
        rw [hw, h0]
        rfl
      · rw [hint]
        exact hw

theorem diskIo_read (off n : Word) (ok : Nat → Bool × Bool) :
    (s.diskIo d none off n ok).1.sectors = s.sectors := by
  unfold State.diskIo
  split
  · rfl
  · dsimp only
    rw [ioLoop_read]
    split <;> rfl

/-- The invariant of a run: the cache agrees with the disks, and these with the record. -/
theorem Reach.coherent {L : Fin 2 → Word → Sector} (h : Reach s L) :
    Coherent s.cache s.sectors ∧ s.sectors = L := by
  induction h with
  | init s h =>
    have hno (i : Nat) : (s.cache i).valid ≠ true := h i ▸ Bool.false_ne_true
    exact ⟨⟨fun i hi => absurd hi (hno i), fun i hi => absurd hi (hno i),
      fun i _ _ _ hi => absurd hi.1 (hno i)⟩, rfl⟩
  | step op h hm ih =>
    obtain ⟨ih, rfl⟩ := ih
    cases op with
    | bread d blk ok => exact ⟨(bread_coherent ih d blk ok).1, (bread_frame ih d blk ok).1⟩
    | bwrite d blk buf ok =>
      obtain ⟨t, done, hw, hc, hs, -⟩ := bwrite_coherent ih d blk buf ok
      rw [State.step, record, hw]
      exact ⟨hc, hs⟩
    | raw d write off n ok =>
      refine ⟨diskIo_coherent ih write off n ok hm, ?_⟩
      cases write with
      | none => exact diskIo_read off _ ok
      | some buf => exact diskIo_written buf off n ok
    | invalidate d => exact ⟨tfsInvalidate_coherent (fun _ _ => rfl) ih rfl, rfl⟩

/-- **The cache is coherent**: in every state of a run whose raw writes fail, if at all, in their
first round, a block has at most one valid entry, and a `bread` that succeeds returns what has last
been written to the block. -/
theorem cache_coherent {s : State} {L : Fin 2 → Word → Sector} (h : Reach s L) :
    (∀ i j, (s.cache i).valid = true → (s.cache j).valid = true →
      (s.cache i).disk = (s.cache j).disk → (s.cache i).blk = (s.cache j).blk → i = j) ∧
    ∀ d blk ok buf, (s.bread d blk ok).2 = some buf → buf = L d (fsSector0 + blk) := by
  obtain ⟨hc, rfl⟩ := h.coherent
  exact ⟨fun i j hi hj hd hb => hc.unique i j _ _ ⟨hi, rfl, rfl⟩ ⟨hj, hb.symm, hd.symm⟩,
    fun d blk ok => (bread_coherent hc d blk ok).2⟩

/-! ## The file system over the cache -/

/-- Disk `d` has the sectors of the file system `t`. -/
structure Backs (s : State) (d : Fin 2) (t : DiskFs.Tfs) : Prop where
  nsectors : t.nsectors = (s.nsectors d).toNat
  disk : ∀ sec : Word, t.disk sec.toNat = s.sectors d sec

variable {t : DiskFs.Tfs}

theorem sector_eq (b : Nat) : DiskFs.sector b = (fsSector0 + BitVec.ofNat 32 b).toNat := by
  rw [BitVec.toNat_add, BitVec.toNat_ofNat, Nat.add_mod_mod]
  rfl

/-- **Reads through the cache**: what the file system reads without a cache, it reads with it. -/
theorem bread_backs (h : Coherent s.cache s.sectors) (hb : Backs s d t) (b : Nat) :
    Backs (s.bread d (.ofNat 32 b) !t.fails false (DiskFs.sector b)).1 d t ∧
      ∀ buf, DiskFs.bread t b = some buf →
        (s.bread d (.ofNat 32 b) !t.fails false (DiskFs.sector b)).2 = some buf := by
  obtain ⟨hs, hns⟩ := bread_frame h d (.ofNat 32 b) !t.fails false (DiskFs.sector b)
  refine ⟨⟨hns ▸ hb.nsectors, hs ▸ hb.disk⟩, fun buf hr => ?_⟩
  unfold DiskFs.bread at hr
  split at hr
  · next hin =>
    rw [bread_some h ⟨by simp [hin.2], ?_⟩, ← hr, ← hb.disk, sector_eq]
    have := hin.1
    rwa [hb.nsectors, sector_eq] at this
  · cases hr

/-- **Writes through the cache**: they succeed when they do without a cache, and leave the same
disk. -/
theorem bwrite_backs (h : Coherent s.cache s.sectors) (hb : Backs s d t) (b : Nat)
    (buf : Sector) :
    Backs (s.bwrite d (.ofNat 32 b) buf !t.fails true (DiskFs.sector b)).1 d
        (DiskFs.bwrite' t b buf) ∧
      (s.bwrite d (.ofNat 32 b) buf !t.fails true (DiskFs.sector b)).2 =
        (DiskFs.bwrite t b buf).isSome := by
  obtain ⟨s', done, hw, -, hs, hns, hdone⟩ :=
    bwrite_coherent h d (.ofNat 32 b) buf !t.fails true (DiskFs.sector b)
  have hin : done = true ↔
      DiskFs.sector b < t.nsectors ∧ t.fails true (DiskFs.sector b) = false := by
    rw [hdone, Bool.not_eq_true', hb.nsectors, and_comm, sector_eq]
    rfl
  rw [hw]
  unfold DiskFs.bwrite' DiskFs.bwrite
  cases done with
  | true =>
    rw [if_pos (hin.1 rfl)]
    refine ⟨⟨hns ▸ hb.nsectors, fun sec => ?_⟩, rfl⟩
    dsimp only [Option.getD_some]
    rw [hs, if_pos rfl, setSector, update_self, sector_eq]
    by_cases he : sec = fsSector0 + BitVec.ofNat 32 b
    · rw [he, update_self, update_self]
    · rw [update_of_ne he, update_of_ne (fun hc => he (BitVec.eq_of_toNat_eq hc))]
      exact hb.disk sec
  | false =>
    rw [if_neg fun hh => Bool.false_ne_true (hin.2 hh)]
    exact ⟨⟨hns ▸ hb.nsectors, hs ▸ hb.disk⟩, rfl⟩

/-- Two empty disks of 4096 sectors, and nothing in the cache. -/
def blank : State :=
  ⟨fun _ => 4096, fun _ _ _ => 0, fun _ => ⟨⟨0, Nat.two_pos⟩, 0, 0, false, fun _ => 0⟩, 0⟩

/-- The state after some operations, and the record of what they have written. -/
def after (ops : List Op) : State × (Fin 2 → Word → Sector) :=
  ops.foldl (fun r op => (r.1.step op, record r.2 r.1 op)) (blank, blank.sectors)

/-- A block is written and read back. -/
theorem cache_coherent_written : ∃ buf,
    ((after [.bwrite 0 5 (fun _ => 7) true]).1.bread 0 5 true).2 = some buf ∧ buf 3 = 7 := by
  have hread : ((after [.bwrite 0 5 (fun _ => 7) true]).1.bread 0 5 true).2.isSome := by
    decide +kernel
  obtain ⟨buf, hbuf⟩ := Option.isSome_iff_exists.1 hread
  have hreach : Reach (after [.bwrite 0 5 (fun _ => 7) true]).1
      (after [.bwrite 0 5 (fun _ => 7) true]).2 :=
    .step (.bwrite 0 5 (fun _ => 7) true) (.init blank fun _ => rfl) trivial
  refine ⟨buf, hbuf, ?_⟩
  rw [(cache_coherent hreach).2 0 5 true buf hbuf]
  decide +kernel

/-- **A raw write that fails half way leaves an old block behind**: block 0 is read, then two
sectors are written through the device and the second one fails; the first is written, and reading
the block again returns its old contents. -/
theorem cut_write_leaves_stale :
    let r := after [.bread 0 0 true,
      .raw 0 (some fun _ => 9) 0x80000 1024 fun j => (true, j == 0)]
    (r.1.bread 0 0 true).2.map (· 0) = some 0 ∧ r.2 0 fsSector0 0 = 9 := by
  decide +kernel

end Tortoise.BlockCache
