import Tortoise.Pipe.Model

/-!
# The ends of a pipe

`readers` and `writers` of a pipe count the files that are open on it, and the place holders
of a device whose ends nobody has opened yet.

* `Books`: the counters of the pipes in use say what they should, and a pipe that is not in
  use has no ends;
* `Ends`: the same for the tables of files and devices, with what a file, a descriptor and a
  call in progress refer to;
* `Reach.ends`: this holds in every state of a run that meets the condition.
-/

namespace Tortoise.Pipes

open Function Lib List

variable {e : End} {q : Pipe} {y : PipeDev} {s s' : Sys}

/-! ## What counts -/

/-- A file open for reading pipe `i`. -/
def File.Reads (x : File) (i : Nat) : Prop :=
  0 < x.ref ∧ x.isPipe = true ∧ x.readable = true ∧ x.pipe = i

/-- A file open for writing pipe `i`. -/
def File.Writes (x : File) (i : Nat) : Prop :=
  0 < x.ref ∧ x.isPipe = true ∧ x.writable = true ∧ x.wpipe = i

instance (x : File) (i : Nat) : Decidable (x.Reads i) :=
  inferInstanceAs (Decidable (_ ∧ _ ∧ _ ∧ _))

instance (x : File) (i : Nat) : Decidable (x.Writes i) :=
  inferInstanceAs (Decidable (_ ∧ _ ∧ _ ∧ _))

/-- The place holder of an end. -/
def PipeDev.Holds (x : PipeDev) (e : End) : Prop := x.used = true ∧ x.opened e = false

instance (x : PipeDev) (e : End) : Decidable (x.Holds e) :=
  inferInstanceAs (Decidable (_ ∧ _))

/-- How many of the place holders read pipe `i`. -/
def PipeDev.reads (i : Nat) (x : PipeDev) : Int :=
  (if x.Holds .data ∧ x.rd .data = i then 1 else 0) +
    if x.Holds .data1 ∧ x.rd .data1 = i then 1 else 0

/-- How many of the place holders write pipe `i`. -/
def PipeDev.writes (i : Nat) (x : PipeDev) : Int :=
  (if x.Holds .data ∧ x.wr .data = i then 1 else 0) +
    if x.Holds .data1 ∧ x.wr .data1 = i then 1 else 0

def File.reads (i : Nat) (x : File) : Int := if x.Reads i then 1 else 0

def File.writes (i : Nat) (x : File) : Int := if x.Writes i then 1 else 0

/-- The ends that read pipe `i`. -/
def Sys.readEnds (s : Sys) (i : Nat) : Int :=
  tally nFile (File.reads i) s.files + tally nPdev (PipeDev.reads i) s.devs

/-- The ends that write pipe `i`. -/
def Sys.writeEnds (s : Sys) (i : Nat) : Int :=
  tally nFile (File.writes i) s.files + tally nPdev (PipeDev.writes i) s.devs

/-- What a file counts for pipe `i` as a reader, and as a writer. -/
def File.ends (i : Nat) (x : File) : Int × Int := (x.reads i, x.writes i)

def PipeDev.ends (i : Nat) (x : PipeDev) : Int × Int := (x.reads i, x.writes i)

/-- The ends that read and the ends that write pipe `i`. -/
def Sys.ends (s : Sys) (i : Nat) : Int × Int := (s.readEnds i, s.writeEnds i)

section

variable {x : File} {d : PipeDev} {i : Nat} {e : End}

theorem count_nonneg {p : Prop} [Decidable p] : 0 ≤ if p then (1 : Int) else 0 := by
  split_ifs <;> decide

theorem File.nonneg : 0 ≤ x.reads i ∧ 0 ≤ x.writes i := ⟨count_nonneg, count_nonneg⟩

theorem PipeDev.nonneg : 0 ≤ d.reads i ∧ 0 ≤ d.writes i :=
  ⟨add_nonneg count_nonneg count_nonneg, add_nonneg count_nonneg count_nonneg⟩

/-- A file that nobody holds counts for no pipe. -/
theorem File.closed (h : x.ref = 0) (i : Nat) : x.ends i = 0 :=
  Prod.ext (if_neg fun hc => hc.1.ne' h) (if_neg fun hc => hc.1.ne' h)

theorem count_pos {p q : Prop} [Decidable p] [Decidable q] (h : p ∨ q) :
    0 < (if p then 1 else 0) + if q then (1 : Int) else 0 := by
  rcases h with h | h <;> rw [if_pos h] <;> split_ifs <;> decide

theorem PipeDev.pos (h : d.Holds e) : 0 < d.reads (d.rd e) ∧ 0 < d.writes (d.wr e) := by
  cases e with
  | data => exact ⟨count_pos (.inl ⟨h, rfl⟩), count_pos (.inl ⟨h, rfl⟩)⟩
  | data1 => exact ⟨count_pos (.inr ⟨h, rfl⟩), count_pos (.inr ⟨h, rfl⟩)⟩

end

section

variable {s : Sys} {i f d : Nat} {e : End}

theorem ends_nonneg : 0 ≤ s.readEnds i ∧ 0 ≤ s.writeEnds i :=
  ⟨add_nonneg (tally_nonneg fun _ => File.nonneg.1) (tally_nonneg fun _ => PipeDev.nonneg.1),
    add_nonneg (tally_nonneg fun _ => File.nonneg.2) (tally_nonneg fun _ => PipeDev.nonneg.2)⟩

theorem readEnds_file (hf : f < nFile) (h : (s.files f).Reads i) : 0 < s.readEnds i :=
  add_pos_of_pos_of_nonneg
    (tally_pos (fun _ => File.nonneg.1) hf (Int.one_pos.trans_eq (if_pos h).symm))
    (tally_nonneg fun _ => PipeDev.nonneg.1)

theorem writeEnds_file (hf : f < nFile) (h : (s.files f).Writes i) : 0 < s.writeEnds i :=
  add_pos_of_pos_of_nonneg
    (tally_pos (fun _ => File.nonneg.2) hf (Int.one_pos.trans_eq (if_pos h).symm))
    (tally_nonneg fun _ => PipeDev.nonneg.2)

theorem ends_dev (hd : d < nPdev) (h : (s.devs d).Holds e) :
    0 < s.readEnds ((s.devs d).rd e) ∧ 0 < s.writeEnds ((s.devs d).wr e) :=
  ⟨add_pos_of_nonneg_of_pos (tally_nonneg fun _ => File.nonneg.1)
      (tally_pos (fun _ => PipeDev.nonneg.1) hd (PipeDev.pos h).1),
    add_pos_of_nonneg_of_pos (tally_nonneg fun _ => File.nonneg.2)
      (tally_pos (fun _ => PipeDev.nonneg.2) hd (PipeDev.pos h).2)⟩

theorem ends_setFile (hf : f < nFile) (x : File) :
    (s.setFile f x).ends i = s.ends i - (s.files f).ends i + x.ends i :=
  Prod.ext (tally_update_add hf x _) (tally_update_add hf x _)

theorem ends_setDev (hd : d < nPdev) (x : PipeDev) :
    (s.setDev d x).ends i = s.ends i - (s.devs d).ends i + x.ends i :=
  Prod.ext (add_tally_update hd x _) (add_tally_update hd x _)

end

/-! ## The counters -/

/-- The counters of the pipes are `R` and `W`. -/
structure Books (s : Sys) (R W : Nat → Int) : Prop where
  counted : ∀ i, (s.pipes i).used = true → (s.pipes i).readers = R i ∧ (s.pipes i).writers = W i
  idle : ∀ i, (s.pipes i).used = false → R i = 0 ∧ W i = 0

section

variable {s s' : Sys} {R W R' W' : Nat → Int} {i p : Nat} {k : Int}

theorem Books.congr (h : Books s R W) (hp : s'.pipes = s.pipes)
    (he : ∀ i, (R' i, W' i) = (R i, W i)) : Books s' R' W' := by
  obtain rfl : R' = R := funext fun i => congrArg Prod.fst (he i)
  obtain rfl : W' = W := funext fun i => congrArg Prod.snd (he i)
  exact ⟨hp ▸ h.counted, hp ▸ h.idle⟩

theorem Books.used (h : Books s R W) (hi : 0 < R i ∨ 0 < W i) : (s.pipes i).used = true := by
  cases hu : (s.pipes i).used with
  | true => rfl
  | false =>
    have := h.idle i hu
    omega

theorem pipes_setPipe (q : Pipe) :
    (s.setPipe p q).pipes i = if i = p then q else s.pipes i := update_apply ..

theorem setPipe_used (hq : q.used = (s.pipes p).used) :
    ((s.setPipe p q).pipes i).used = (s.pipes i).used := by
  rw [pipes_setPipe]
  split_ifs with hi
  · rw [hi, hq]
  · rfl

@[simp] theorem addReaders_used : ((s.addReaders p k).pipes i).used = (s.pipes i).used :=
  setPipe_used rfl

@[simp] theorem addWriters_used : ((s.addWriters p k).pipes i).used = (s.pipes i).used :=
  setPipe_used rfl

theorem Books.setPipe (h : Books s R W) (hp : s'.pipes = (s.setPipe p q).pipes) (hu : q.used = true)
    (hr : q.readers = R' p) (hw : q.writers = W' p)
    (he : ∀ i, i ≠ p → R' i = R i ∧ W' i = W i) : Books s' R' W' where
  counted := by
    rw [hp]
    refine (forall_update_iff s.pipes fun i x => x.used = true →
      x.readers = R' i ∧ x.writers = W' i).2 ⟨fun _ => ⟨hr, hw⟩, fun i hip => ?_⟩
    rw [(he i hip).1, (he i hip).2]
    exact h.counted i
  idle := by
    rw [hp]
    refine (forall_update_iff s.pipes fun i x => x.used = false → R' i = 0 ∧ W' i = 0).2
      ⟨fun hi => absurd (hu.symm.trans hi) (by decide), fun i hip => ?_⟩
    rw [(he i hip).1, (he i hip).2]
    exact h.idle i

theorem Books.addReaders (h : Books s R W) (hu : (s.pipes p).used = true) :
    Books (s.addReaders p k) (fun i => R i + if i = p then k else 0) W :=
  h.setPipe rfl hu (by simp [(h.counted p hu).1]) (h.counted p hu).2 fun i hi => by simp [hi]

theorem Books.addWriters (h : Books s R W) (hu : (s.pipes p).used = true) :
    Books (s.addWriters p k) R (fun i => W i + if i = p then k else 0) :=
  h.setPipe rfl hu (h.counted p hu).1 (by simp [(h.counted p hu).2]) fun i hi => by simp [hi]

/-- `pipe_check` frees a pipe only when it has no ends. -/
theorem Books.pipeCheck (h : Books s R W) (h0 : ∀ i, 0 ≤ R i ∧ 0 ≤ W i) (p : Nat) :
    Books (s.pipeCheck p) R W := by
  unfold Sys.pipeCheck
  split_ifs with hc
  · refine ⟨fun i hi => ?_, fun i hi => ?_⟩
    · rw [pipes_setPipe] at hi ⊢
      split_ifs at hi ⊢
      exact h.counted i hi
    · rw [pipes_setPipe] at hi
      split_ifs at hi with hip
      · subst hip
        cases hu : (s.pipes i).used with
        | false => exact h.idle i hu
        | true =>
          have := h.counted i hu
          have := h0 i
          omega
      · exact h.idle i hi
  · exact h

theorem Books.newPipe (h : Books s R W) (hu : (s.pipes p).used = false) (r w : Int) :
    Books (s.newPipe p r w) (fun i => R i + if i = p then r else 0)
      (fun i => W i + if i = p then w else 0) :=
  h.setPipe rfl rfl (by simp [(h.idle p hu).1]) (by simp [(h.idle p hu).2])
    fun i hi => by simp [hi]

end

/-! ## Changes of counters only -/

/-- Only counters and marks of pipes change, and no pipe comes into use. -/
structure Quiet (s s' : Sys) : Prop where
  only : s' = { s with pipes := s'.pipes }
  data : ∀ i, (s'.pipes i).buf = (s.pipes i).buf ∧ (s'.pipes i).nread = (s.pipes i).nread ∧
    (s'.pipes i).nwrite = (s.pipes i).nwrite
  used : ∀ i, (s'.pipes i).used = true → (s.pipes i).used = true

section

variable {s s' s'' : Sys} {i p : Nat} {k : Int}

theorem Quiet.refl (s : Sys) : Quiet s s := ⟨rfl, fun _ => ⟨rfl, rfl, rfl⟩, fun _ h => h⟩

theorem Quiet.trans (h : Quiet s s') (h' : Quiet s' s'') : Quiet s s'' where
  only := by
    rw [h'.only, h.only]
  data i := by
    obtain ⟨h1, h2, h3⟩ := h.data i
    obtain ⟨h4, h5, h6⟩ := h'.data i
    exact ⟨h4.trans h1, h5.trans h2, h6.trans h3⟩
  used i hi := h.used i (h'.used i hi)

theorem Quiet.setPipe (hb : q.buf = (s.pipes p).buf) (hr : q.nread = (s.pipes p).nread)
    (hw : q.nwrite = (s.pipes p).nwrite) (hu : q.used = true → (s.pipes p).used = true) :
    Quiet s (s.setPipe p q) where
  only := rfl
  data i := by
    rw [pipes_setPipe]
    split_ifs with hi
    · rw [hi]
      exact ⟨hb, hr, hw⟩
    · exact ⟨rfl, rfl, rfl⟩
  used i := by
    rw [pipes_setPipe]
    split_ifs with hi
    · rw [hi]
      exact hu
    · exact id

theorem Quiet.addReaders : Quiet s (s.addReaders p k) := Quiet.setPipe rfl rfl rfl fun h => h

theorem Quiet.addWriters : Quiet s (s.addWriters p k) := Quiet.setPipe rfl rfl rfl fun h => h

theorem Quiet.pipeCheck : Quiet s (s.pipeCheck p) := by
  unfold Sys.pipeCheck
  split_ifs
  · exact Quiet.setPipe rfl rfl rfl nofun
  · exact Quiet.refl s

theorem Quiet.dropHolder (x : PipeDev) (e : End) : Quiet s (s.dropHolder x e) :=
  Quiet.addWriters.trans Quiet.addReaders

theorem Quiet.dropUnopened (x : PipeDev) (e : End) : Quiet s (s.dropUnopened x e) := by
  unfold Sys.dropUnopened
  split_ifs
  · exact Quiet.refl s
  · exact Quiet.dropHolder x e

theorem Quiet.addReader (x : File) : Quiet s (s.addReader x k) := by
  unfold Sys.addReader
  split_ifs
  · exact Quiet.addReaders
  · exact Quiet.refl s

theorem Quiet.addWriter (x : File) : Quiet s (s.addWriter x k) := by
  unfold Sys.addWriter
  split_ifs
  · exact Quiet.addWriters
  · exact Quiet.refl s

theorem Quiet.checkBoth (x : File) : Quiet s (s.checkBoth x) := by
  unfold Sys.checkBoth
  split_ifs
  · exact Quiet.pipeCheck.trans Quiet.pipeCheck
  · exact Quiet.pipeCheck

theorem Quiet.closeEnds (x : File) : Quiet s (s.closeEnds x) :=
  ((Quiet.addReader x).trans (Quiet.addWriter x)).trans (Quiet.checkBoth x)

@[simp] theorem addReader_used {x : File} :
    ((s.addReader x k).pipes i).used = (s.pipes i).used := by
  unfold Sys.addReader
  split_ifs <;> simp

variable {R W : Nat → Int} {x : File}

theorem Books.addReader (h : Books s R W) (hu : x.readable = true → (s.pipes x.pipe).used = true) :
    Books (s.addReader x k) (fun i => R i + if x.readable = true ∧ x.pipe = i then k else 0) W := by
  unfold Sys.addReader
  split_ifs with hc
  · exact (h.addReaders (hu hc)).congr rfl fun i => by simp [hc, eq_comm]
  · exact h.congr rfl fun i => by simp [hc]

theorem Books.addWriter (h : Books s R W) (hu : x.writable = true → (s.pipes x.wpipe).used = true) :
    Books (s.addWriter x k) R (fun i => W i + if x.writable = true ∧ x.wpipe = i then k else 0) := by
  unfold Sys.addWriter
  split_ifs with hc
  · exact (h.addWriters (hu hc)).congr rfl fun i => by simp [hc, eq_comm]
  · exact h.congr rfl fun i => by simp [hc]

theorem Books.checkBoth (h : Books s R W) (h0 : ∀ i, 0 ≤ R i ∧ 0 ≤ W i) (x : File) :
    Books (s.checkBoth x) R W := by
  unfold Sys.checkBoth
  split_ifs
  · exact (h.pipeCheck h0 _).pipeCheck h0 _
  · exact h.pipeCheck h0 _

theorem Books.dropHolder {x : PipeDev} (h : Books s R W) (hr : (s.pipes (x.rd e)).used = true)
    (hw : (s.pipes (x.wr e)).used = true) :
    Books (s.dropHolder x e) (fun i => R i - if x.rd e = i then 1 else 0)
      (fun i => W i - if x.wr e = i then 1 else 0) := by
  unfold Sys.dropHolder
  refine ((h.addWriters (k := -1) hw).addReaders (p := x.rd e) (k := -1) ?_).congr rfl fun i => ?_
  · rw [addWriters_used]
    exact hr
  · simp only [eq_comm]
    split_ifs <;> rfl

@[simp] theorem dropHolder_used {x : PipeDev} :
    ((s.dropHolder x e).pipes i).used = (s.pipes i).used := by
  unfold Sys.dropHolder
  rw [addReaders_used, addWriters_used]

theorem Books.dropUnopened {x : PipeDev} (h : Books s R W)
    (hr : x.opened e = false → (s.pipes (x.rd e)).used = true)
    (hw : x.opened e = false → (s.pipes (x.wr e)).used = true) :
    Books (s.dropUnopened x e) (fun i => R i - if x.opened e = false ∧ x.rd e = i then 1 else 0)
      (fun i => W i - if x.opened e = false ∧ x.wr e = i then 1 else 0) := by
  unfold Sys.dropUnopened
  split_ifs with ho
  · exact h.congr rfl fun i => by simp [ho]
  · have ho' : x.opened e = false := by simpa using ho
    exact (h.dropHolder (hr ho') (hw ho')).congr rfl fun i => by simp [ho']

@[simp] theorem dropUnopened_used {x : PipeDev} :
    ((s.dropUnopened x e).pipes i).used = (s.pipes i).used := by
  unfold Sys.dropUnopened
  split_ifs <;> simp

end

/-! ## What refers to what -/

/-- Files, devices, descriptors and calls in progress refer to pipes that are still the ones
they were made for. -/
structure Refs (s : Sys) : Prop where
  file : ∀ f, 0 < (s.files f).ref → f < nFile
  rid : ∀ f i, (s.files f).Reads i → s.ids i = (s.files f).rid
  wid : ∀ f i, (s.files f).Writes i → s.ids i = (s.files f).wid
  dev : ∀ d, (s.devs d).used = true → d < nPdev
  holder : ∀ d e, (s.devs d).Holds e → s.ids ((s.devs d).rd e) = (s.devs d).rdId e ∧
    s.ids ((s.devs d).wr e) = (s.devs d).wrId e
  slot : ∀ f, (s.files f).ref = s.slots.countP fun k => k.2 = f
  reading : ∀ p c, s.procs p = .reading c →
    (s.files c.file).Reads c.pipe ∧ (s.files c.file).rid = c.id
  writing : ∀ p c, s.procs p = .writing c →
    (s.files c.file).Writes c.pipe ∧ (s.files c.file).wid = c.id

/-- All about the ends of pipes. -/
structure Ends (s : Sys) : Prop where
  refs : Refs s
  books : Books s s.readEnds s.writeEnds

theorem Refs.quiet (h : Refs s) (hq : Quiet s s') : Refs s' := by
  rw [hq.only]
  exact { h with }

theorem Quiet.ends (hq : Quiet s s') (i : Nat) : s'.ends i = s.ends i := by
  rw [hq.only]
  rfl

section

variable {s s' : Sys} {f d i p : Nat} {e : End} {x : File} {slot : Slot}

theorem Ends.used_of_reads (h : Ends s) (hf : (s.files f).Reads i) : (s.pipes i).used = true :=
  h.books.used (Or.inl (readEnds_file (h.refs.file f hf.1) hf))

theorem Ends.used_of_writes (h : Ends s) (hf : (s.files f).Writes i) : (s.pipes i).used = true :=
  h.books.used (Or.inr (writeEnds_file (h.refs.file f hf.1) hf))

/-- The data of one pipe changes, and its ends stay. -/
theorem Ends.sameEnds (h : Ends s) (hu : (s.pipes i).used = true)
    (hr : q.readers = (s.pipes i).readers) (hw : q.writers = (s.pipes i).writers)
    (hq : q.used = (s.pipes i).used) (hp : s'.pipes = (s.setPipe i q).pipes) :
    Books s' s.readEnds s.writeEnds := by
  obtain ⟨h1, h2⟩ := h.books.counted i hu
  exact h.books.setPipe hp (hq.trans hu) (hr.trans h1) (hw.trans h2) fun _ _ => ⟨rfl, rfl⟩

theorem Ends.used_of_holds (h : Ends s) (hd : (s.devs d).Holds e) :
    (s.pipes ((s.devs d).rd e)).used = true ∧ (s.pipes ((s.devs d).wr e)).used = true :=
  have hpos := ends_dev (h.refs.dev d hd.1) hd
  ⟨h.books.used (Or.inl hpos.1), h.books.used (Or.inr hpos.2)⟩

/-- Nothing refers to pipe `i`. -/
structure NoEnds (s : Sys) (i : Nat) : Prop where
  reads : ∀ f, ¬(s.files f).Reads i
  writes : ∀ f, ¬(s.files f).Writes i
  holds : ∀ d e, (s.devs d).Holds e → (s.devs d).rd e ≠ i ∧ (s.devs d).wr e ≠ i

theorem Ends.noEnds (h : Ends s) (hu : (s.pipes i).used = false) : NoEnds s i where
  reads f hf := by
    rw [h.used_of_reads hf] at hu
    cases hu
  writes f hf := by
    rw [h.used_of_writes hf] at hu
    cases hu
  holds d e hd := by
    obtain ⟨h1, h2⟩ := h.used_of_holds hd
    constructor
    · rintro rfl
      rw [h1] at hu
      cases hu
    · rintro rfl
      rw [h2] at hu
      cases hu

/-- A new pipe gets its number, which nothing refers to. -/
theorem Refs.newPipe (h : Refs s) (hno : NoEnds s i) (r w : Int) : Refs (s.newPipe i r w) := by
  have hids : ∀ j, j ≠ i → (s.newPipe i r w).ids j = s.ids j :=
    fun j hj => update_of_ne hj _ _
  refine ⟨h.file, fun f j hf => ?_, fun f j hf => ?_, h.dev, fun d e hd => ?_, h.slot, h.reading,
    h.writing⟩
  · refine (hids j ?_).trans (h.rid f j hf)
    rintro rfl
    exact hno.reads f hf
  · refine (hids j ?_).trans (h.wid f j hf)
    rintro rfl
    exact hno.writes f hf
  · obtain ⟨h1, h2⟩ := hno.holds d e hd
    obtain ⟨h3, h4⟩ := h.holder d e hd
    exact ⟨(hids _ h1).trans h3, (hids _ h2).trans h4⟩

theorem Refs.setFile (slots : List (Slot × Nat)) (h : Refs s) (hlt : 0 < x.ref → f < nFile)
    (hr : ∀ i, x.Reads i → s.ids i = x.rid) (hw : ∀ i, x.Writes i → s.ids i = x.wid)
    (hf : x.ref = slots.countP fun k => k.2 = f)
    (ho : ∀ g, g ≠ f → (s.slots.countP fun k => k.2 = g) = slots.countP fun k => k.2 = g)
    (hreads : ∀ p c, s.procs p = .reading c → c.file = f → x.Reads c.pipe ∧ x.rid = c.id)
    (hwrites : ∀ p c, s.procs p = .writing c → c.file = f → x.Writes c.pipe ∧ x.wid = c.id) :
    Refs { s.setFile f x with slots := slots } := by
  have hfiles (P : Nat → File → Prop) (hx : P f x) (hg : ∀ g, g ≠ f → P g (s.files g)) :
      ∀ g, P g (update s.files f x g) := (forall_update_iff s.files P).2 ⟨hx, hg⟩
  refine ⟨?_, ?_, ?_, h.dev, h.holder, ?_, fun p c hc => ?_, fun p c hc => ?_⟩
  · exact hfiles (fun g y => 0 < y.ref → g < nFile) hlt fun g _ => h.file g
  · exact hfiles (fun _ y => ∀ i, y.Reads i → s.ids i = y.rid) hr fun g _ => h.rid g
  · exact hfiles (fun _ y => ∀ i, y.Writes i → s.ids i = y.wid) hw fun g _ => h.wid g
  · exact hfiles (fun g y => y.ref = slots.countP fun k => k.2 = g) hf fun g hg =>
      (h.slot g).trans (ho g hg)
  · exact hfiles (fun g y => c.file = g → y.Reads c.pipe ∧ y.rid = c.id) (hreads p c hc)
      (fun g _ hg => hg ▸ h.reading p c hc) _ rfl
  · exact hfiles (fun g y => c.file = g → y.Writes c.pipe ∧ y.wid = c.id) (hwrites p c hc)
      (fun g _ hg => hg ▸ h.writing p c hc) _ rfl

/-- `file_alloc` and a descriptor for the file. -/
theorem Refs.openFile (h : Refs s) (hf : f < nFile) (h0 : (s.files f).ref = 0) (hx : x.ref = 1)
    (hr : ∀ i, x.Reads i → s.ids i = x.rid) (hw : ∀ i, x.Writes i → s.ids i = x.wid) :
    Refs ((s.setFile f x).hold slot f) := by
  refine h.setFile ((slot, f) :: s.slots) (fun _ => hf) hr hw ?_ (fun g hg => ?_)
    (fun p c hc hcf => ?_) fun p c hc hcf => ?_
  · rw [countP_cons, ← h.slot f, h0, hx]
    simp
  · rw [countP_cons]
    simp [Ne.symm hg]
  · have := (h.reading p c hc).1.1
    rw [hcf] at this
    omega
  · have := (h.writing p c hc).1.1
    rw [hcf] at this
    omega

/-- The counters agree with the tables when a file has been added to both. -/
theorem Books.openFile (slot : Slot) (R W : Nat → Int)
    (h : Books s (fun i => s.readEnds i + (x.reads i + R i))
      fun i => s.writeEnds i + (x.writes i + W i)) (hf : f < nFile) (h0 : (s.files f).ref = 0) :
    Books ((s.setFile f x).hold slot f)
      (fun i => ((s.setFile f x).hold slot f).readEnds i + R i)
      fun i => ((s.setFile f x).hold slot f).writeEnds i + W i := by
  refine h.congr rfl fun i => ?_
  change (s.setFile f x).ends i + (R i, W i) = s.ends i + (x.ends i + (R i, W i))
  rw [ends_setFile hf, File.closed h0]
  ring

theorem freePipe_some (h : s.freePipe = some i) : (s.pipes i).used = false := by
  simpa using List.find?_some h

theorem freeFile_some (h : s.freeFile = some f) : f < nFile ∧ (s.files f).ref = 0 :=
  ⟨mem_range.1 (List.mem_of_find?_eq_some h), by simpa using List.find?_some h⟩

theorem freeDev_some (h : s.freeDev = some d) : d < nPdev ∧ (s.devs d).used = false :=
  ⟨mem_range.1 (List.mem_of_find?_eq_some h), by simpa using List.find?_some h⟩

theorem sysPipe_some {a b : Slot} (h : s.sysPipe a b = some s') : ∃ i r w,
    (s.pipes i).used = false ∧ r < nFile ∧ (s.files r).ref = 0 ∧ w < nFile ∧
      (s.files w).ref = 0 ∧ w ≠ r ∧
      s' = ((((s.newPipe i 1 1).setFile r (.reader i s.nextId)).hold a r).setFile w
        (.writer i s.nextId)).hold b w := by
  unfold Sys.sysPipe at h
  simp only [Option.bind_eq_bind, Option.bind_eq_some_iff] at h
  obtain ⟨i, hi, r, hr, w, hw, h⟩ := h
  obtain ⟨hr1, hr2⟩ := freeFile_some hr
  obtain ⟨hw1, hw2⟩ := freeFile_some hw
  have hwr : w ≠ r := by
    rintro rfl
    simp [Sys.setFile, File.reader] at hw2
  have hw3 : (s.files w).ref = 0 := by
    rw [← hw2]
    simp [Sys.setFile, update_of_ne hwr]
  split_ifs at h
  cases h
  exact ⟨i, r, w, freePipe_some hi, hr1, hr2, hw1, hw3, hwr, rfl⟩

theorem reader_ends (i id j : Nat) : (File.reader i id).reads j = (if j = i then 1 else 0) ∧
    (File.reader i id).writes j = 0 := by
  simp [File.reads, File.Reads, File.writes, File.Writes, File.reader, eq_comm]

theorem writer_ends (i id j : Nat) : (File.writer i id).reads j = 0 ∧
    (File.writer i id).writes j = if j = i then 1 else 0 := by
  simp [File.reads, File.Reads, File.writes, File.Writes, File.writer, File.wpipe, eq_comm]

theorem Ends.sysPipe {a b : Slot} (h : Ends s) (hs : s.sysPipe a b = some s') : Ends s' := by
  obtain ⟨i, r, w, hi, hr, hr0, hw, hw0, hwr, rfl⟩ := sysPipe_some hs
  have hid : (s.newPipe i 1 1).ids i = s.nextId := update_self ..
  have hw1 : ((((s.newPipe i 1 1).setFile r (.reader i s.nextId)).hold a r).files w).ref = 0 := by
    rw [← hw0]
    exact congrArg File.ref (update_of_ne hwr _ _)
  refine ⟨Refs.openFile (Refs.openFile (h.refs.newPipe (h.noEnds hi) 1 1) hr hr0 rfl ?_ ?_) hw hw1 rfl
    ?_ ?_, ?_⟩
  · rintro j ⟨-, -, -, rfl⟩
    exact hid
  · rintro j ⟨-, -, hc, -⟩
    cases hc
  · rintro j ⟨-, -, hc, -⟩
    cases hc
  · rintro j ⟨-, -, -, rfl⟩
    exact hid
  · have h1 := Books.openFile (s := s.newPipe i 1 1) (x := .reader i s.nextId) a
      (fun j => (File.writer i s.nextId).reads j + 0)
      (fun j => (File.writer i s.nextId).writes j + 0)
      ((h.books.newPipe hi 1 1).congr rfl fun j => by
        simp only [reader_ends, writer_ends, add_zero, zero_add]
        rfl) hr hr0
    exact (h1.openFile b (fun _ => 0) (fun _ => 0) hw hw1).congr rfl fun j => by simp

theorem attach_some (h : s.attach = some s') : ∃ d a b, d < nPdev ∧ (s.devs d).used = false ∧
    (s.pipes a).used = false ∧ ((s.newPipe a 1 1).pipes b).used = false ∧
      s' = ((s.newPipe a 1 1).newPipe b 1 1).setDev d
        ⟨true, a, b, false, false, s.nextId, s.nextId + 1⟩ := by
  unfold Sys.attach at h
  simp only [Option.bind_eq_bind, Option.bind_eq_some_iff] at h
  obtain ⟨d, hd, a, ha, b, hb, h⟩ := h
  obtain ⟨hd1, hd2⟩ := freeDev_some hd
  cases h
  exact ⟨d, a, b, hd1, hd2, freePipe_some ha, freePipe_some hb, rfl⟩

theorem Refs.setDev (h : Refs s) (hd : d < nPdev)
    (hy : ∀ e, y.Holds e → s.ids (y.rd e) = y.rdId e ∧ s.ids (y.wr e) = y.wrId e) :
    Refs (s.setDev d y) := by
  refine ⟨h.file, h.rid, h.wid, ?_, ?_, h.slot, h.reading, h.writing⟩
  · exact (forall_update_iff s.devs fun g x => x.used = true → g < nPdev).2
      ⟨fun _ => hd, fun g _ => h.dev g⟩
  · exact (forall_update_iff s.devs fun _ x => ∀ e, x.Holds e →
      s.ids (x.rd e) = x.rdId e ∧ s.ids (x.wr e) = x.wrId e).2 ⟨hy, fun g _ => h.holder g⟩

theorem Ends.attach (h : Ends s) (hs : s.attach = some s') : Ends s' := by
  obtain ⟨d, a, b, hd, hd0, ha, hb, rfl⟩ := attach_some hs
  have hab : b ≠ a := by
    rintro rfl
    simp [Sys.newPipe] at hb
  have hb0 : (s.pipes b).used = false := by
    rw [← hb]
    exact congrArg Pipe.used (update_of_ne hab _ _).symm
  have hno : NoEnds (s.newPipe a 1 1) b := by
    obtain ⟨h1, h2, h3⟩ := h.noEnds hb0
    exact ⟨h1, h2, h3⟩
  have hida : ((s.newPipe a 1 1).newPipe b 1 1).ids a = s.nextId := by
    refine (update_of_ne hab.symm _ _).trans ?_
    exact update_self ..
  have hidb : ((s.newPipe a 1 1).newPipe b 1 1).ids b = s.nextId + 1 := update_self ..
  have hends : ∀ j, (s.devs d).ends j = 0 := by
    intro j
    simp [PipeDev.ends, PipeDev.reads, PipeDev.writes, PipeDev.Holds, hd0]
  refine ⟨Refs.setDev ((h.refs.newPipe (h.noEnds ha) 1 1).newPipe hno 1 1) hd ?_, ?_⟩
  · rintro e -
    cases e with
    | data => exact ⟨hidb, hida⟩
    | data1 => exact ⟨hida, hidb⟩
  · refine ((h.books.newPipe ha 1 1).newPipe hb 1 1).congr rfl fun j => (ends_setDev hd _).trans ?_
    change s.ends j - (s.devs d).ends j + _ = _
    rw [hends, sub_zero]
    simp only [Sys.ends, PipeDev.ends, PipeDev.reads, PipeDev.writes, PipeDev.Holds, PipeDev.rd,
      PipeDev.wr, PipeDev.opened, true_and, and_self, eq_comm, Prod.mk_add_mk, Prod.mk.injEq]
    constructor <;> ring

/-! ## Descriptors -/

theorem mem_of_lookup_slot (h : s.slots.lookup slot = some f) : (slot, f) ∈ s.slots := by
  obtain ⟨l₁, l₂, hl, -⟩ := lookup_eq_some_iff.1 h
  rw [hl]
  simp

theorem Refs.ref_pos (h : Refs s) (hs : (slot, f) ∈ s.slots) : 0 < (s.files f).ref := by
  rw [h.slot f]
  exact countP_pos_iff.2 ⟨(slot, f), hs, by simp⟩

/-- A file changes only in the number of its holders, and stays open. -/
theorem Refs.setRef {n : Nat} (slots : List (Slot × Nat)) (h : Refs s) (h0 : 0 < (s.files f).ref)
    (hn : 0 < n) (hf : n = slots.countP fun k => k.2 = f)
    (ho : ∀ g, g ≠ f → (s.slots.countP fun k => k.2 = g) = slots.countP fun k => k.2 = g) :
    Refs { s.setFile f { s.files f with ref := n } with slots := slots } := by
  have hreads : ∀ i, ({ s.files f with ref := n } : File).Reads i ↔ (s.files f).Reads i := by
    simp [File.Reads, h0, hn]
  have hwrites : ∀ i, ({ s.files f with ref := n } : File).Writes i ↔ (s.files f).Writes i := by
    simp [File.Writes, File.wpipe, h0, hn]
  refine h.setFile slots (fun _ => h.file f h0) (fun i hi => h.rid f i ((hreads i).1 hi))
    (fun i hi => h.wid f i ((hwrites i).1 hi)) hf ho (fun p c hc hcf => ?_) fun p c hc hcf => ?_
  · rw [hreads, ← hcf]
    exact h.reading p c hc
  · rw [hwrites, ← hcf]
    exact h.writing p c hc

theorem ends_setRef {n : Nat} (h0 : 0 < (s.files f).ref) (hn : 0 < n) (hf : f < nFile) (j : Nat) :
    (s.setFile f { s.files f with ref := n }).ends j = s.ends j := by
  have h : File.ends j { s.files f with ref := n } = (s.files f).ends j := by
    simp [File.ends, File.reads, File.Reads, File.writes, File.Writes, File.wpipe, h0, hn]
  rw [ends_setFile hf, h, sub_add_cancel]

theorem Ends.dup {src dst : Slot} (h : Ends s) (hs : s.dup src dst = some s') : Ends s' := by
  unfold Sys.dup at hs
  obtain ⟨f, hf, hs⟩ := Option.bind_eq_some_iff.1 hs
  split_ifs at hs
  cases hs
  have h0 := h.refs.ref_pos (mem_of_lookup_slot hf)
  have hlt := h.refs.file f h0
  refine ⟨h.refs.setRef ((dst, f) :: s.slots) h0 (Nat.succ_pos _) ?_ ?_, ?_⟩
  · rw [countP_cons, ← h.refs.slot f]
    simp
  · intro g hg
    rw [countP_cons]
    simp [Ne.symm hg]
  · exact h.books.congr rfl (ends_setRef h0 (Nat.succ_pos _) hlt)

theorem countP_erase_slot (hs : (slot, f) ∈ s.slots) (g : Nat) :
    ((s.slots.erase (slot, f)).countP fun k => k.2 = g) =
      (s.slots.countP fun k => k.2 = g) - if g = f then 1 else 0 := by
  rw [countP_erase]
  by_cases hg : g = f
  · simp [hg, hs]
  · simp [hg, Ne.symm hg]

/-- The last holder gives a file back that no call works on. -/
theorem Refs.forget (slots : List (Slot × Nat)) (h : Refs s) (h0 : x.ref = 0)
    (hf : 0 = slots.countP fun k => k.2 = f)
    (ho : ∀ g, g ≠ f → (s.slots.countP fun k => k.2 = g) = slots.countP fun k => k.2 = g)
    (hp : ∀ p, (s.procs p).file ≠ some f) : Refs { s.setFile f x with slots := slots } := by
  have hclosed : ¬0 < x.ref := by omega
  refine h.setFile slots (fun hx => absurd hx hclosed) (fun i hi => absurd hi.1 hclosed)
    (fun i hi => absurd hi.1 hclosed) (h0.trans hf) ho (fun p c hc hcf => ?_) fun p c hc hcf => ?_
  · refine absurd ?_ (hp p)
    rw [hc, ← hcf]
    rfl
  · refine absurd ?_ (hp p)
    rw [hc, ← hcf]
    rfl

/-- The ends of a file that nobody holds any more. -/
theorem Ends.closeEnds (h : Ends s) (h0 : 0 < (s.files f).ref) (hx : x.ref = 0) :
    Books (if (s.files f).isPipe then s.closeEnds (s.files f) else s)
      (s.setFile f x).readEnds (s.setFile f x).writeEnds := by
  have hlt := h.refs.file f h0
  have hends : ∀ j, (s.setFile f x).ends j = s.ends j - (s.files f).ends j := by
    intro j
    rw [ends_setFile hlt, File.closed hx, add_zero]
  split_ifs with hp
  · have h1 := (h.books.addReader (k := -1) (x := s.files f) fun hc =>
      h.used_of_reads ⟨h0, hp, hc, rfl⟩).addWriter (k := -1) (x := s.files f) fun hc => by
        rw [addReader_used]
        exact h.used_of_writes ⟨h0, hp, hc, rfl⟩
    have h2 : Books ((s.addReader (s.files f) (-1)).addWriter (s.files f) (-1))
        (s.setFile f x).readEnds (s.setFile f x).writeEnds := by
      refine h1.congr rfl fun j => (hends j).trans ?_
      simp only [Sys.ends, File.ends, File.reads, File.Reads, File.writes, File.Writes, h0, hp,
        true_and, Prod.mk_sub_mk, Prod.mk.injEq]
      constructor <;> split_ifs <;> ring
    exact h2.checkBoth (fun _ => ends_nonneg) _
  · refine h.books.congr rfl fun j => (hends j).trans ?_
    simp [Sys.ends, File.ends, File.reads, File.Reads, File.writes, File.Writes, hp]

theorem Ends.close (h : Ends s) (hm : s.Meets (.close slot)) (hs : s.close slot = some s') :
    Ends s' := by
  unfold Sys.close at hs
  obtain ⟨f, hf, hs⟩ := Option.bind_eq_some_iff.1 hs
  have hmem := mem_of_lookup_slot hf
  have h0 := h.refs.ref_pos hmem
  have hlt := h.refs.file f h0
  have hcount := countP_erase_slot hmem
  cases hs
  unfold Sys.fileClose
  by_cases h1 : 1 < (s.files f).ref
  · simp only [if_pos h1]
    refine ⟨h.refs.setRef (s.slots.erase (slot, f)) h0 (by omega) ?_ ?_, ?_⟩
    · rw [hcount, ← h.refs.slot f, if_pos rfl]
    · intro g hg
      rw [hcount, if_neg hg, Nat.sub_zero]
    · exact h.books.congr rfl (ends_setRef h0 (by omega) hlt)
  · simp only [if_neg h1]
    have hbusy : ∀ p, (s.procs p).file ≠ some f := by
      rcases hm f hf with hm | hm
      · exact absurd hm h1
      · exact hm
    have hq : Quiet s (if (s.files f).isPipe then s.closeEnds (s.files f) else s) := by
      split_ifs
      · exact Quiet.closeEnds _
      · exact Quiet.refl _
    have hb := h.closeEnds (x := { s.files f with ref := 0, isPipe := false, pipe2 := none }) h0 rfl
    have hr := h.refs.forget (f := f) (x := { s.files f with ref := 0, isPipe := false, pipe2 := none })
      (s.slots.erase (slot, f)) rfl (by rw [hcount, ← h.refs.slot f, if_pos rfl]; omega)
      (fun g hg => by rw [hcount, if_neg hg, Nat.sub_zero]) hbusy
    generalize (if (s.files f).isPipe then s.closeEnds (s.files f) else s) = q at hq hb ⊢
    obtain ⟨P, rfl⟩ : ∃ P, q = { s with pipes := P } := ⟨q.pipes, hq.only⟩
    exact ⟨{ hr with }, hb.congr rfl fun _ => rfl⟩

/-! ## The device -/

theorem holds_setOpened {e' : End} : (y.setOpened e).Holds e' ↔
    y.Holds e' ∧ e' ≠ e := by
  cases e <;> cases e' <;> simp [PipeDev.setOpened, PipeDev.Holds, PipeDev.opened]

theorem rd_setOpened (y : PipeDev) (e e' : End) : (y.setOpened e).rd e' = y.rd e' ∧
    (y.setOpened e).wr e' = y.wr e' ∧ (y.setOpened e).rdId e' = y.rdId e' ∧
      (y.setOpened e).wrId e' = y.wrId e' := by
  cases e <;> cases e' <;> exact ⟨rfl, rfl, rfl, rfl⟩

theorem ends_setOpened (h : y.Holds e) (j : Nat) : (y.setOpened e).ends j =
    y.ends j - (if y.rd e = j then 1 else 0, if y.wr e = j then 1 else 0) := by
  unfold PipeDev.ends PipeDev.reads PipeDev.writes
  simp only [holds_setOpened, rd_setOpened]
  cases e with
  | data => simp [h]
  | data1 => simp [h]

/-- The first `open` of an end: its place holder goes. -/
theorem Ends.takeEnd (h : Ends s) (hd : (s.devs d).used = true) : Ends (s.takeEnd d e) := by
  unfold Sys.takeEnd
  split_ifs with ho
  · exact h
  · have hold : (s.devs d).Holds e := ⟨hd, by simpa using ho⟩
    have hlt := h.refs.dev d hd
    have h1 : Refs (s.setDev d ((s.devs d).setOpened e)) := by
      refine h.refs.setDev hlt fun e' he' => ?_
      obtain ⟨h2, h3, h4, h5⟩ := rd_setOpened (s.devs d) e e'
      rw [h2, h3, h4, h5]
      exact h.refs.holder d e' (holds_setOpened.1 he').1
    obtain ⟨hr, hw⟩ := h.used_of_holds hold
    have hb : Books (s.setDev d ((s.devs d).setOpened e)) s.readEnds s.writeEnds :=
      h.books.congr rfl fun _ => rfl
    have hq : Quiet (s.setDev d ((s.devs d).setOpened e))
        ((s.setDev d ((s.devs d).setOpened e)).dropHolder (s.devs d) e) := Quiet.dropHolder _ _
    refine ⟨h1.quiet hq, (hb.dropHolder hr hw).congr rfl fun j => (hq.ends j).trans ?_⟩
    rw [ends_setDev hlt, ends_setOpened hold, sub_add_sub_cancel]
    rfl

theorem takeEnd_frame : (s.takeEnd d e).files = s.files ∧ (s.takeEnd d e).ids = s.ids ∧
    (∀ i, ((s.takeEnd d e).pipes i).used = (s.pipes i).used) := by
  unfold Sys.takeEnd
  split_ifs
  · exact ⟨rfl, rfl, fun _ => rfl⟩
  · exact ⟨rfl, rfl, fun _ => dropHolder_used⟩

theorem Ends.open9 {r w : Bool} (h : Ends s) (hm : s.Meets (.open9 d e r w slot))
    (hs : s.open9 d e r w slot = some s') : Ends s' := by
  unfold Sys.open9 at hs
  obtain ⟨f, hf, hs⟩ := Option.bind_eq_some_iff.1 hs
  obtain ⟨hlt, h0⟩ := freeFile_some hf
  split_ifs at hs with hc
  cases hs
  rw [Bool.and_eq_true] at hc
  obtain ⟨hfiles, hids, hused⟩ := takeEnd_frame (s := s) (d := d) (e := e)
  have h1 : Ends (s.takeEnd d e) := h.takeEnd hc.1
  generalize s.takeEnd d e = t at *
  obtain ⟨hmr, hmw⟩ := hm
  -- the file to come, and the counters with it
  obtain ⟨x, hx⟩ : ∃ x, Sys.endFile (s.devs d) e r w = x := ⟨_, rfl⟩
  have hxr : ∀ j, x.Reads j ↔ r = true ∧ (s.devs d).rd e = j := by
    intro j
    rw [← hx]
    simp [Sys.endFile, File.Reads]
  have hxw : ∀ j, x.Writes j ↔ w = true ∧ (s.devs d).wr e = j := by
    intro j
    rw [← hx]
    simp [Sys.endFile, File.Writes, File.wpipe]
  have hxp : x.readable = r ∧ x.pipe = (s.devs d).rd e ∧ x.writable = w ∧
      x.wpipe = (s.devs d).wr e ∧ x.rid = (s.devs d).rdId e ∧ x.wid = (s.devs d).wrId e ∧
      x.ref = 1 := by
    rw [← hx]
    exact ⟨rfl, rfl, rfl, rfl, rfl, rfl, rfl⟩
  obtain ⟨hx1, hx2, hx3, hx4, hx5, hx6, hx7⟩ := hxp
  rw [hx]
  have hq : Quiet t ((t.addReader x 1).addWriter x 1) :=
    (Quiet.addReader x).trans (Quiet.addWriter x)
  have hb := (h1.books.addReader (k := 1) (x := x) (by
    rw [hx1, hx2]
    intro hr
    rw [hused]
    exact (hmr hr).1)).addWriter (k := 1) (x := x) (by
    rw [hx3, hx4]
    intro hw
    rw [addReader_used, hused]
    exact (hmw hw).1)
  have hfile : (((t.addReader x 1).addWriter x 1).files f).ref = 0 := by
    rw [hq.only]
    exact (congrArg (fun g => (g f).ref) hfiles).trans h0
  have hid : ∀ j, ((t.addReader x 1).addWriter x 1).ids j = s.ids j := by
    intro j
    rw [hq.only]
    exact congrFun hids j
  refine ⟨(h1.refs.quiet hq).openFile hlt hfile hx7 ?_ ?_, ?_⟩
  · intro j hj
    obtain ⟨hr, rfl⟩ := (hxr j).1 hj
    rw [hid, hx5]
    exact (hmr hr).2
  · intro j hj
    obtain ⟨hw, rfl⟩ := (hxw j).1 hj
    rw [hid, hx6]
    exact (hmw hw).2
  · refine (Books.openFile (x := x) slot (fun _ => 0) (fun _ => 0) (hb.congr rfl
      fun j => ?_) hlt hfile).congr rfl fun j => by simp
    obtain ⟨h3, h4⟩ := Prod.mk.inj (hq.ends j)
    simp only [h3, h4, add_zero, hx1, hx2, hx3, hx4, File.reads, hxr, File.writes, hxw]

theorem Ends.release (h : Ends s) (hs : s.release d = some s') : Ends s' := by
  unfold Sys.release at hs
  simp only at hs
  split_ifs at hs with hd
  cases hs
  have hlt := h.refs.dev d hd
  have hold : ∀ e, (s.devs d).opened e = false → (s.devs d).Holds e := fun e ho => ⟨hd, ho⟩
  have hb := (h.books.dropUnopened (x := s.devs d) (e := .data)
    (fun ho => (h.used_of_holds (hold _ ho)).1)
    (fun ho => (h.used_of_holds (hold _ ho)).2)).dropUnopened (x := s.devs d) (e := .data1)
    (fun ho => by rw [dropUnopened_used]; exact (h.used_of_holds (hold _ ho)).1)
    (fun ho => by rw [dropUnopened_used]; exact (h.used_of_holds (hold _ ho)).2)
  -- what the tables count without the device
  have hb' : Books ((s.dropUnopened (s.devs d) .data).dropUnopened (s.devs d) .data1)
      (s.setDev d { s.devs d with used := false }).readEnds
      (s.setDev d { s.devs d with used := false }).writeEnds := by
    refine hb.congr rfl fun j => (ends_setDev hlt _).trans ?_
    simp only [Sys.ends, PipeDev.ends, PipeDev.reads, PipeDev.writes, PipeDev.Holds, hd, true_and,
      Bool.false_eq_true, false_and, if_false, Prod.mk_sub_mk, Prod.mk_add_mk, Prod.mk.injEq]
    constructor <;> ring
  have hb2 := (hb'.pipeCheck (fun _ => ends_nonneg) (s.devs d).ab).pipeCheck (fun _ => ends_nonneg)
    (s.devs d).ba
  have hq : Quiet s ((((s.dropUnopened (s.devs d) .data).dropUnopened (s.devs d) .data1).pipeCheck
      (s.devs d).ab).pipeCheck (s.devs d).ba) :=
    (((Quiet.dropUnopened _ _).trans (Quiet.dropUnopened _ _)).trans Quiet.pipeCheck).trans
      Quiet.pipeCheck
  have hr : Refs (s.setDev d { s.devs d with used := false }) :=
    h.refs.setDev hlt fun e he => by cases he.1
  generalize ((((s.dropUnopened (s.devs d) .data).dropUnopened (s.devs d) .data1).pipeCheck
    (s.devs d).ab).pipeCheck (s.devs d).ba) = q at hq hb2 ⊢
  obtain ⟨P, rfl⟩ : ∃ P, q = { s with pipes := P } := ⟨q.pipes, hq.only⟩
  exact ⟨{ hr with }, hb2.congr rfl fun _ => rfl⟩

end

end Tortoise.Pipes
