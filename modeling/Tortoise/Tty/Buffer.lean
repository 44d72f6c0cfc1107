import Tortoise.Tty.Model

/-!
# The buffer of a terminal

Seen from outside, the buffer is a queue in two parts: the bytes that can be read, and behind them
those that can still be edited.

* `Queue.input`, `Queue.pull`, `cut`: what input and reads do to a queue that has no end.  Bytes
  come in at the end; they leave at the front, as the result of a read, or at the end, erased by
  the erase, kill and signal characters.
* `Kept`: in every state of a run the counters are in order and no further apart than the buffer is
  long, and every step does to the bytes exactly what it does to the queue (`Tty.expected`), so no
  byte is replaced by a newer one.
* `kept_iff_proper`: that is so exactly if a pty gets no line end and no end-of-file character
  while its buffer is full.
* `master_overwrites`: the 513th newline takes the place of the first.
-/

namespace Tortoise.Terminals

open Lib List

/-- The bytes that can be read and those that can be edited. -/
structure Queue where
  done : List Byte
  pend : List Byte

/-- The bytes of a terminal. -/
def Tty.queue (t : Tty) : Queue :=
  ⟨between ttyBuf t.buf t.r t.w, between ttyBuf t.buf t.w t.e⟩

/-- How many bytes are held. -/
def Queue.held (q : Queue) : Nat := q.done.length + q.pend.length

/-- A byte at the end that makes everything readable. -/
def Queue.finish (q : Queue) (c : Byte) : Queue := ⟨q.done ++ q.pend ++ [c], []⟩

/-- **What an input byte does**: signals and editing characters take bytes from the end, line ends
finish a line, and any other byte is added or refused. -/
def Queue.input (m : Termios) (q : Queue) (c : Byte) : Queue :=
  let c := m.translate c
  if m.signals c then ⟨q.done, []⟩
  else if m.icanon then
    if c = m.verase ∨ c = 8 then ⟨q.done, q.pend.dropLast⟩
    else if c = m.vkill then ⟨q.done, []⟩
    else if c = m.veof ∨ c = newline then q.finish c
    else if q.held < ttyBuf - 1 then ⟨q.done, q.pend ++ [c]⟩
    else q
  else if q.held < ttyBuf then q.finish c
  else q

/-- Bytes are taken from the device while fewer than `want` can be read. -/
def Queue.pull (m : Termios) (want : Nat) : List Byte → Queue → Queue
  | [], q => q
  | c :: cs, q => if q.done.length < want then pull m want cs (q.input m c) else q

/-- A canonical read of at most `n` bytes: what it returns and what it leaves.  It stops behind a
newline, and takes an end-of-file character without returning it. -/
def cut (m : Termios) : Nat → List Byte → List Byte × List Byte
  | 0, d => ([], d)
  | _ + 1, [] => ([], [])
  | n + 1, c :: d =>
    if c = m.veof then ([], d)
    else if c = newline then ([c], d)
    else (c :: (cut m n d).1, (cut m n d).2)

/-- The bytes that an event returns and leaves, from the queue before it. -/
def Tty.expected (t : Tty) : Event → List Byte × Queue
  | .intr listening c =>
    ([], if t.console ∧ accepting t listening then t.queue.input t.term c else t.queue)
  | .master c => ([], if t.console then t.queue else t.queue.input t.term c)
  | .read n uart =>
    -- only a raw read of the console that waits for nothing looks at the device itself
    ([], if n ≠ 0 ∧ t.term.icanon = false ∧ t.term.vmin = 0 ∧ t.term.vtime = 0 ∧ t.console ∧
        t.queue.done = [] then t.queue.pull t.term n.toNat uart else t.queue)
  | .copy true n =>
    ((cut t.term n.toNat t.queue.done).1, ⟨(cut t.term n.toNat t.queue.done).2, t.queue.pend⟩)
  | .copy false n => (t.queue.done.take n.toNat, ⟨t.queue.done.drop n.toNat, t.queue.pend⟩)
  | .setTerm m =>
    ([], if t.term.icanon ∧ m.icanon = false then ⟨t.queue.done ++ t.queue.pend, []⟩ else t.queue)
  | .fail | .pollHold => ([], t.queue)

/-- `r <= w <= e <= r + TTYBUF`, as differences. -/
def Tty.Ordered (t : Tty) : Prop := (t.w - t.r).toNat ≤ t.held ∧ t.held ≤ ttyBuf

instance (t : Tty) : Decidable t.Ordered := inferInstanceAs (Decidable (_ ∧ _))

/-- Every state of the run is in order, and every step does what it does to the queue. -/
def Kept : Tty → List Event → Prop
  | _, [] => True
  | t, ev :: evs => (step t ev).2.Ordered ∧
      ((step t ev).1, (step t ev).2.queue) = t.expected ev ∧ Kept (step t ev).2 evs

/-- The byte ends a line: it is stored without a look at the room. -/
def Tty.ends (t : Tty) (c : Byte) : Bool :=
  let c := t.term.translate c
  t.term.icanon && !t.term.signals c && c != t.term.verase && c != 8 && c != t.term.vkill &&
    (c == t.term.veof || c == newline)

/-- A line end at the master of a pty finds room. -/
def Tty.Proper (t : Tty) : Event → Prop
  | .master c => t.console = false → t.ends c = true → t.held < ttyBuf
  | _ => True

/-- Every step of the run is proper. -/
def ProperRun : Tty → List Event → Prop
  | _, [] => True
  | t, ev :: evs => t.Proper ev ∧ ProperRun (step t ev).2 evs

/-! ## The queue -/

/-- There is room behind what can be edited. -/
structure Queue.Fits (q : Queue) : Prop where
  room : q.held ≤ ttyBuf
  edit : q.pend.length < ttyBuf

/-- What every proper step keeps. -/
def Inv (t : Tty) : Prop := t.queue.Fits

section Steps

variable {t t' : Tty} {c : Byte} {q : Queue} {m : Termios}

theorem ttyBuf_dvd : ttyBuf ∣ 2 ^ 32 := by decide

theorem ordered_iff : t.Ordered ↔ t.queue.held ≤ ttyBuf := by
  unfold Tty.Ordered Queue.held Tty.held Tty.queue ttyBuf
  simp only [length_between]
  bv_omega

theorem Inv.ordered (h : Inv t) : t.Ordered := ordered_iff.2 h.room

theorem Tty.Ordered.held (h : t.Ordered) : t.held = t.queue.held := by
  unfold Tty.Ordered Tty.held ttyBuf at h
  unfold Tty.held Queue.held Tty.queue
  simp only [length_between]
  bv_omega

theorem put_queue (h : t.Ordered) (hroom : t.held < ttyBuf) :
    (t.put c).queue = ⟨t.queue.done, t.queue.pend ++ [c]⟩ := by
  have hput : between ttyBuf (Function.update t.buf (t.e.toNat % ttyBuf) c) t.r (t.e + 1) =
      between ttyBuf t.buf t.r t.e ++ [c] :=
    between_succ ttyBuf_dvd (by decide) hroom c
  have hnext : (t.w - t.r).toNat ≤ (t.e + 1 - t.r).toNat := by
    have := h.1
    unfold Tty.held ttyBuf at *
    bv_omega
  -- the two parts, in the old and in the new buffer
  rw [between_split ttyBuf_dvd h.1, between_split ttyBuf_dvd hnext, List.append_assoc] at hput
  obtain ⟨h1, h2⟩ := append_inj hput (by simp)
  exact congrArg₂ Queue.mk h1 h2

theorem commit_queue (h : t.Ordered) : (commit t).queue = ⟨t.queue.done ++ t.queue.pend, []⟩ := by
  unfold commit Tty.queue
  rw [between_self, ← between_split ttyBuf_dvd h.1]

theorem eraseOne_queue (t : Tty) : (eraseOne t).queue = ⟨t.queue.done, t.queue.pend.dropLast⟩ := by
  unfold eraseOne Tty.queue
  split
  · next he => simp [he]
  · next he => exact congrArg (Queue.mk _) (between_pred ttyBuf_dvd fun h => he h.symm)

theorem eraseLine_eq (t : Tty) : eraseLine t = { t with e := t.w } := by
  unfold eraseLine
  generalize hn : (t.e - t.w).toNat = n
  induction n generalizing t with
  | zero =>
    have he : t.e = t.w := by bv_omega
    exact congrArg (fun e => { t with e := e }) he
  | succ n ih =>
    have hne : t.e ≠ t.w := by bv_omega
    rw [Function.iterate_succ_apply, eraseOne, if_neg hne]
    exact ih { t with e := t.e - 1 } (by show (t.e - 1 - t.w).toNat = n; bv_omega)

theorem finish_queue (h : t.Ordered) (hroom : t.held < ttyBuf) :
    (commit (t.put c)).queue = t.queue.finish c := by
  have hq := put_queue (c := c) h hroom
  have hput : (t.put c).Ordered := by
    have hlen := h.held
    rw [ordered_iff, hq]
    simp only [Queue.held, length_append, length_singleton] at hlen ⊢
    omega
  rw [commit_queue hput, hq, Queue.finish, List.append_assoc]

/-! ## The steps -/

/-- **An input byte does to the buffer what it does to the queue**, if a line end finds room. -/
theorem ttyInput_queue (h : Inv t) (hroom : t.ends c = true → t.held < ttyBuf) :
    (ttyInput t c).queue = t.queue.input t.term c := by
  have hord := h.ordered
  have hheld := hord.held
  unfold ttyInput Queue.input
  unfold Tty.ends at hroom
  generalize t.term.translate c = c at hroom ⊢
  simp only [Bool.and_eq_true, Bool.not_eq_true', bne_iff_ne, ne_eq, Bool.or_eq_true,
    beq_iff_eq, and_imp] at hroom
  by_cases hsig : t.term.signals c = true
  · rw [if_pos hsig, if_pos hsig]
    simp [Tty.queue]
  rw [if_neg hsig, if_neg hsig]
  by_cases hcanon : t.term.icanon = true
  · rw [if_pos hcanon, if_pos hcanon]
    have hends := hroom hcanon (by simpa using hsig)
    unfold canonInput
    by_cases herase : c = t.term.verase ∨ c = 8
    · rw [if_pos herase, if_pos herase, eraseOne_queue]
    rw [if_neg herase, if_neg herase]
    by_cases hkill : c = t.term.vkill
    · rw [if_pos hkill, if_pos hkill, eraseLine_eq]
      simp [Tty.queue]
    rw [if_neg hkill, if_neg hkill]
    have hends := hends (fun h => herase (.inl h)) (fun h => herase (.inr h)) hkill
    by_cases hend : c = t.term.veof ∨ c = newline
    · have hfin := finish_queue (c := c) hord (hends hend)
      rw [if_pos hend]
      rcases hend with heof | hnl
      · rw [if_pos heof, hfin]
      · rw [if_pos hnl, if_neg (fun h : _ ∧ c ≠ newline => h.2 hnl), ite_self, hfin]
    · obtain ⟨heof, hnl⟩ := not_or.1 hend
      rw [if_neg hend, if_neg heof, if_neg hnl]
      by_cases hfull : t.held < ttyBuf - 1
      · rw [if_neg (by omega), if_pos (by omega), put_queue hord (by omega)]
      · rw [if_pos ⟨by omega, hnl⟩, if_neg (by omega)]
  · rw [if_neg hcanon, if_neg hcanon]
    by_cases hfull : t.held < ttyBuf
    · rw [if_neg (by omega), if_pos (by omega), finish_queue hord hfull]
    · rw [if_pos (by omega), if_neg (by omega)]

theorem Queue.Fits.finish (h : q.held < ttyBuf) : (q.finish c).Fits := by
  unfold Queue.held ttyBuf at h
  constructor
  · simp only [Queue.finish, Queue.held, length_append, length_cons, length_nil, ttyBuf]
    omega
  · simp [Queue.finish, ttyBuf]

theorem Queue.Fits.shrink (h : q.Fits) {d p : List Byte} (hd : d.length ≤ q.done.length)
    (hp : p.length ≤ q.pend.length) : Queue.Fits ⟨d, p⟩ := by
  have := h.room
  have := h.edit
  constructor <;> simp only [Queue.held] at * <;> omega

theorem Inv.input (h : Inv t) (hroom : t.ends c = true → t.held < ttyBuf) : Inv (ttyInput t c) := by
  unfold Inv
  rw [ttyInput_queue h hroom]
  unfold Tty.ends at hroom
  unfold Queue.input
  generalize t.term.translate c = c at hroom ⊢
  have hheld := h.ordered.held
  simp only
  split_ifs with hsig hcanon herase hkill hend hfull hfull
  · exact Queue.Fits.shrink h le_rfl (Nat.zero_le _)
  · exact Queue.Fits.shrink h le_rfl (by simp)
  · exact Queue.Fits.shrink h le_rfl (Nat.zero_le _)
  · refine Queue.Fits.finish (hheld ▸ hroom ?_)
    obtain ⟨h1, h2⟩ := not_or.1 herase
    simpa [hsig, hcanon, hkill, h1, show c ≠ 8#8 from h2] using hend
  · have hroom := h.room
    constructor <;> simp only [Queue.held, length_append, length_singleton] at * <;> omega
  · exact h
  · exact Queue.Fits.finish hfull
  · exact h

theorem done_cons (h : t.r ≠ t.w) : t.queue.done =
    t.buf (t.r.toNat % ttyBuf) :: { t with r := t.r + 1 }.queue.done := between_cons ttyBuf_dvd h

theorem done_nil_iff : t.queue.done = [] ↔ t.r = t.w := by
  rw [← length_eq_zero_iff]
  simp only [Tty.queue, length_between]
  bv_omega

/-- The copy loop of `canon_read` reads the queue. -/
theorem canonTake_cut (n : Nat) (t : Tty) :
    (canonTake n t).1 = (cut t.term n t.queue.done).1 ∧
      (canonTake n t).2.queue = ⟨(cut t.term n t.queue.done).2, t.queue.pend⟩ ∧
      (canonTake n t).2.term = t.term := by
  induction n generalizing t with
  | zero => exact ⟨rfl, rfl, rfl⟩
  | succ n ih =>
    rw [canonTake]
    simp only
    by_cases hr : t.r = t.w
    · rw [if_pos hr, done_nil_iff.2 hr]
      exact ⟨rfl, congrArg (Queue.mk · _) (done_nil_iff.2 hr), rfl⟩
    · obtain ⟨h1, h2, h3⟩ := ih { t with r := t.r + 1 }
      rw [if_neg hr, done_cons hr, cut]
      split_ifs with heof hnl
      · exact ⟨rfl, rfl, rfl⟩
      · exact ⟨rfl, rfl, rfl⟩
      · exact ⟨congrArg (List.cons _) h1, h2, h3⟩

/-- The copy loop of `raw_read` takes what there is. -/
theorem rawTake_take (n : Nat) (t : Tty) : (rawTake n t).1 = t.queue.done.take n ∧
    (rawTake n t).2.queue = ⟨t.queue.done.drop n, t.queue.pend⟩ := by
  induction n generalizing t with
  | zero => exact ⟨rfl, rfl⟩
  | succ n ih =>
    rw [rawTake]
    by_cases hr : t.r = t.w
    · rw [if_pos hr, done_nil_iff.2 hr]
      exact ⟨rfl, congrArg (Queue.mk · _) (done_nil_iff.2 hr)⟩
    · obtain ⟨h1, h2⟩ := ih { t with r := t.r + 1 }
      rw [if_neg hr, done_cons hr]
      exact ⟨congrArg (List.cons _) h1, h2⟩

theorem cut_length (n : Nat) (d : List Byte) : (cut m n d).2.length ≤ d.length := by
  induction n generalizing d with
  | zero => exact le_rfl
  | succ n ih =>
    cases d with
    | nil => exact le_rfl
    | cons c d =>
      rw [cut]
      have := ih d
      split_ifs <;> simp only [length_cons] <;> omega

/-- Outside the canonical mode no line end is stored unchecked. -/
theorem ends_canon (h : t.term.icanon = false) : t.ends c = false := by
  simp [Tty.ends, h]

theorem ttyInput_keeps (t : Tty) (c : Byte) :
    (ttyInput t c).term = t.term ∧ (ttyInput t c).want = t.want := by
  unfold ttyInput canonInput
  rw [eraseLine_eq]
  unfold eraseOne commit Tty.put
  simp only
  split_ifs <;> exact ⟨rfl, rfl⟩

/-- **Bytes from the device** go the way of all input. -/
theorem conPull_queue (h : Inv t) (hraw : t.term.icanon = false) (uart : List Byte) :
    (conPull uart t).queue = t.queue.pull t.term t.want.toNat uart ∧ Inv (conPull uart t) := by
  induction uart generalizing t with
  | nil => exact ⟨rfl, h⟩
  | cons c cs ih =>
    have hroom : t.ends c = true → t.held < ttyBuf := by simp [ends_canon hraw]
    have hlen : (t.w - t.r).toNat = t.queue.done.length := by simp [Tty.queue]
    rw [conPull, Queue.pull, hlen]
    split
    · obtain ⟨hterm, hwant⟩ := ttyInput_keeps t c
      have ih := ih (h.input hroom) (by rw [hterm]; exact hraw)
      rwa [ttyInput_queue h hroom, hterm, hwant] at ih
    · exact ⟨rfl, h⟩

/-- At the console a line is finished only when the lines before it have been read. -/
theorem console_room (h : Inv t) {listening : Bool} {c : Byte} (hacc : accepting t listening = true)
    (hends : t.ends c = true) : t.held < ttyBuf := by
  have hcanon : t.term.icanon = true := by
    simp only [Tty.ends, Bool.and_eq_true] at hends
    exact hends.1.1.1.1.1
  have hwr : t.w = t.r := by
    simp only [accepting, hcanon, if_true, Bool.and_eq_true, beq_iff_eq] at hacc
    exact hacc.2
  have hedit := h.edit
  rw [h.ordered.held, Queue.held, done_nil_iff.2 hwr.symm]
  simpa using hedit

theorem read_expected (h : Inv t) (n : Word) (uart : List Byte) :
    ((step t (.read n uart)).1, (step t (.read n uart)).2.queue) = t.expected (.read n uart) ∧
      Inv (step t (.read n uart)).2 := by
  simp only [step, Tty.expected]
  unfold readStart rawStart
  simp only
  by_cases hn : n = 0 ∨ t.term.icanon = true
  · rw [if_pos hn, if_neg (by rcases hn with hn | hn <;> simp [hn])]
    exact ⟨rfl, h⟩
  rw [if_neg hn]
  obtain ⟨hn, hcanon⟩ := not_or.1 hn
  have hraw : t.term.icanon = false := by simpa using hcanon
  have hleast : min t.term.vmin.toNat n.toNat = 0 ↔ t.term.vmin = 0 := by bv_omega
  by_cases hpull : (t.term.vmin = 0 ∧ t.term.vtime = 0) ∧ t.console = true ∧ t.w = t.r
  · obtain ⟨⟨hmin, htime⟩, hcon, hwr⟩ := hpull
    rw [if_pos ⟨hleast.2 hmin, htime⟩, if_pos ⟨hcon, hwr⟩,
      if_pos ⟨hn, hraw, hmin, htime, hcon, done_nil_iff.2 hwr.symm⟩]
    obtain ⟨hq, hi⟩ := conPull_queue (t := { t with hold := false, want := n }) h hraw uart
    exact ⟨congrArg _ hq, hi⟩
  · have hno : ¬ (n ≠ 0 ∧ t.term.icanon = false ∧ t.term.vmin = 0 ∧ t.term.vtime = 0 ∧
        t.console = true ∧ t.queue.done = []) := by
      rintro ⟨-, -, hmin, htime, hcon, hnil⟩
      exact hpull ⟨⟨hmin, htime⟩, hcon, (done_nil_iff.1 hnil).symm⟩
    rw [if_neg hno]
    split_ifs with hmin hnow
    · exact absurd ⟨⟨hleast.1 hmin.1, hmin.2⟩, hnow⟩ hpull
    · exact ⟨rfl, h⟩
    · exact ⟨rfl, h⟩

/-- **A proper step does to the bytes what it does to the queue.** -/
theorem step_expected (h : Inv t) {ev : Event} (hp : t.Proper ev) :
    ((step t ev).1, (step t ev).2.queue) = t.expected ev ∧ Inv (step t ev).2 := by
  cases ev with
  | intr listening c =>
    simp only [step, Tty.expected]
    split
    · next hacc =>
        have hroom : t.ends c = true → t.held < ttyBuf := console_room h hacc.2
        exact ⟨congrArg _ (ttyInput_queue h hroom), h.input hroom⟩
    · exact ⟨rfl, h⟩
  | master c =>
    simp only [step, Tty.expected]
    split
    · exact ⟨rfl, h⟩
    · next hc =>
        have hroom := hp (by simpa using hc)
        exact ⟨congrArg _ (ttyInput_queue h hroom), h.input hroom⟩
  | read n uart => exact read_expected h n uart
  | copy canon n =>
    cases canon with
    | true =>
      obtain ⟨h1, h2, -⟩ := canonTake_cut n.toNat t
      refine ⟨congrArg₂ Prod.mk h1 h2, ?_⟩
      show (canonTake n.toNat t).2.queue.Fits
      exact h2 ▸ Queue.Fits.shrink h (cut_length _ _) le_rfl
    | false =>
      obtain ⟨h1, h2⟩ := rawTake_take n.toNat t
      refine ⟨congrArg₂ Prod.mk h1 h2, ?_⟩
      show (rawTake n.toNat t).2.queue.Fits
      exact h2 ▸ Queue.Fits.shrink h (by simp) le_rfl
  | fail => exact ⟨rfl, h⟩
  | setTerm m =>
    simp only [step, Tty.expected, Terminals.setTerm]
    split
    · have hq := commit_queue h.ordered
      refine ⟨congrArg _ hq, ?_⟩
      show (commit t).queue.Fits
      rw [hq]
      exact ⟨by simpa [Queue.held] using h.room, by simp [ttyBuf]⟩
    · exact ⟨rfl, h⟩
  | pollHold => exact ⟨rfl, h⟩

/-- A line end that finds no room makes the counters too far apart. -/
theorem proper_of_ordered (h : Inv t) {ev : Event} (ho : (step t ev).2.Ordered) : t.Proper ev := by
  cases ev with
  | master c =>
    intro hc hends
    by_contra hfull
    simp only [Tty.ends, Bool.and_eq_true, Bool.not_eq_true', bne_iff_ne, ne_eq, Bool.or_eq_true,
      beq_iff_eq] at hends
    obtain ⟨⟨⟨⟨⟨hcanon, hsig⟩, h1⟩, h2⟩, hkill⟩, hend⟩ := hends
    have hstored : ttyInput t c = commit (t.put (t.term.translate c)) := by
      unfold ttyInput canonInput
      simp only [hsig, hcanon, h1, h2, hkill]
      rcases hend with he | he <;> simp [he]
    have hheld := h.ordered.2
    simp only [step, hc, hstored] at ho
    have := ho.2
    unfold commit Tty.put Tty.held ttyBuf at *
    simp only [if_neg Bool.false_ne_true] at this
    bv_omega
  | _ => trivial

end Steps

theorem inv_init (console : Bool) : Inv (.init console) := by
  constructor <;> simp [Queue.held, Tty.queue, Tty.init, ttyBuf]

theorem kept_iff_of_inv {t : Tty} (h : Inv t) (evs : List Event) :
    Kept t evs ↔ ProperRun t evs := by
  induction evs generalizing t with
  | nil => exact Iff.rfl
  | cons ev evs ih =>
    constructor
    · rintro ⟨ho, -, hrest⟩
      have hp := proper_of_ordered h ho
      exact ⟨hp, (ih (step_expected h hp).2).1 hrest⟩
    · rintro ⟨hp, hrest⟩
      obtain ⟨hq, hi⟩ := step_expected h hp
      exact ⟨hi.ordered, hq, (ih hi).2 hrest⟩

/-- **Input is never overwritten, unless a pty's buffer is full.**  For the console and for a pty,
and for every sequence of input bytes, reads and changes of the mode: the counters stay in order and
no byte is replaced by a newer one exactly if no line end or end-of-file character is written to the
master of a pty in canonical mode while 512 bytes are held. -/
theorem kept_iff_proper (console : Bool) (evs : List Event) :
    Kept (.init console) evs ↔ ProperRun (.init console) evs :=
  kept_iff_of_inv (inv_init console) evs

/-- **A full buffer is written over.**  After 512 newlines behind an `x` at the master of a pty the
counters are too far apart, and a read finds a newline in the place of the `x`. -/
theorem master_overwrites :
    let t := (Event.master 0x78 :: List.replicate 512 (.master newline)).foldl
      (fun t ev => (step t ev).2) (.init false)
    ¬ t.Ordered ∧ (step t (.copy true 1)).1 = [newline] := by
  decide +kernel

end Tortoise.Terminals
