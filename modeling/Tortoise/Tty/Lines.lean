import Tortoise.Tty.Buffer

/-!
# The canonical line discipline

What reads of a terminal in canonical mode return, against a terminal that keeps lines.

* `Lines`: the finished lines and the one that is being typed.  A newline stays in its line, the
  end-of-file character does not; a read takes from the first line, and never past its end.
* `Encodes`: how the buffer holds the lines, with their delimiters among the bytes.
* `canonical_lines`: the results are the same, as long as no read ends right in front of an
  end-of-file character with bytes before it.
* `eof_read_twice`: there the next read finds the delimiter and returns 0.
-/

namespace Tortoise.Terminals

open Lib List

/-! ## The terminal that keeps lines -/

/-- Finished lines, the oldest first, and the bytes of the next one. -/
structure Lines where
  lines : List (List Byte)
  cur : List Byte

/-- A byte is typed. -/
def Lines.input (m : Termios) (s : Lines) (c : Byte) : Lines :=
  let c := m.translate c
  if m.signals c then { s with cur := [] }
  else if c = m.verase ∨ c = 8 then { s with cur := s.cur.dropLast }
  else if c = m.vkill then { s with cur := [] }
  else if c = m.veof then ⟨s.lines ++ [s.cur], []⟩
  else if c = newline then ⟨s.lines ++ [s.cur ++ [c]], []⟩
  else { s with cur := s.cur ++ [c] }

/-- At most `n` bytes are read from the first line; without a line a read waits. -/
def Lines.read (n : Nat) (s : Lines) : Option (List Byte) × Lines :=
  match s.lines with
  | [] => (none, s)
  | l :: ls =>
    if l.length ≤ n then (some l, { s with lines := ls })
    else (some (l.take n), { s with lines := l.drop n :: ls })

inductive Act where
  | input (c : Byte)
  | read (n : Word)

/-- What the reads return. -/
def lineResults (m : Termios) : List Act → Lines → List (Option (List Byte))
  | [], _ => []
  | .input c :: acts, s => lineResults m acts (s.input m c)
  | .read n :: acts, s => (s.read n.toNat).1 :: lineResults m acts (s.read n.toNat).2

/-- `canon_read`, which waits while there is nothing to read. -/
def canonRead (n : Nat) (t : Tty) : Option (List Byte) × Tty :=
  if t.r = t.w then (none, t) else (some (canonTake n t).1, (canonTake n t).2)

/-- What the reads of the source return. -/
def ttyResults : List Act → Tty → List (Option (List Byte))
  | [], _ => []
  | .input c :: acts, t => ttyResults acts (ttyInput t c)
  | .read n :: acts, t => (canonRead n.toNat t).1 :: ttyResults acts (canonRead n.toNat t).2

/-- The buffer is never filled, and every read asks for something. -/
def NeverFull : List Act → Tty → Prop
  | [], _ => True
  | .input c :: acts, t => t.held + 1 < ttyBuf ∧ NeverFull acts (ttyInput t c)
  | .read n :: acts, t => n ≠ 0 ∧ NeverFull acts (canonRead n.toNat t).2

/-- The byte is no delimiter. -/
def Termios.Plain (m : Termios) (c : Byte) : Prop := c ≠ m.veof ∧ c ≠ newline

instance (m : Termios) (c : Byte) : Decidable (m.Plain c) := inferInstanceAs (Decidable (_ ∧ _))

/-- The next `n` bytes are no delimiters, and the one behind them is the end-of-file character. -/
def Tty.StopsAtEof (t : Tty) (n : Nat) : Prop :=
  (∀ c ∈ t.queue.done.take n, t.term.Plain c) ∧ t.queue.done[n]? = some t.term.veof

instance (t : Tty) (n : Nat) : Decidable (t.StopsAtEof n) := inferInstanceAs (Decidable (_ ∧ _))

/-- No read ends right in front of an end-of-file character. -/
def Clean : List Act → Tty → Prop
  | [], _ => True
  | .input c :: acts, t => Clean acts (ttyInput t c)
  | .read n :: acts, t => ¬ t.StopsAtEof n.toNat ∧ Clean acts (canonRead n.toNat t).2

/-! ## Lines in the buffer -/

/-- The bytes `d` hold the lines. -/
inductive Encodes (m : Termios) : List Byte → List (List Byte) → Prop
  | nil : Encodes m [] []
  | eof {l d : List Byte} {ls : List (List Byte)} (hl : ∀ c ∈ l, m.Plain c) (h : Encodes m d ls) :
      Encodes m (l ++ m.veof :: d) (l :: ls)
  | newline {l d : List Byte} {ls : List (List Byte)} (hl : ∀ c ∈ l, m.Plain c)
      (hne : Terminals.newline ≠ m.veof) (h : Encodes m d ls) :
      Encodes m (l ++ Terminals.newline :: d) ((l ++ [Terminals.newline]) :: ls)

section Cut

variable {m : Termios} {l d : List Byte} {ls : List (List Byte)}

theorem Lines.read_cons (n : Nat) (cur : List Byte) : Lines.read n ⟨l :: ls, cur⟩ =
    if l.length ≤ n then (some l, ⟨ls, cur⟩) else (some (l.take n), ⟨l.drop n :: ls, cur⟩) := rfl

theorem Encodes.eq_nil_iff (h : Encodes m d ls) : d = [] ↔ ls = [] := by
  cases h <;> simp

/-- What is typed behind the lines becomes the last one. -/
theorem Encodes.concat {d' l' : List Byte} (h : Encodes m d ls) (h' : Encodes m d' [l']) :
    Encodes m (d ++ d') (ls ++ [l']) := by
  induction h with
  | nil => exact h'
  | eof hl _ ih => simpa using Encodes.eof hl ih
  | newline hl hne _ ih => simpa using Encodes.newline hl hne ih

/-- Bytes that are no delimiters are taken one by one. -/
theorem cut_append (hl : ∀ c ∈ l, m.Plain c) (n : Nat) (d : List Byte) :
    cut m n (l ++ d) = (l.take n ++ (cut m (n - l.length) d).1,
      l.drop n ++ (cut m (n - l.length) d).2) := by
  induction l generalizing n with
  | nil => simp
  | cons c l ih =>
    cases n with
    | zero => simp [cut]
    | succ n =>
      obtain ⟨h1, h2⟩ := hl c mem_cons_self
      have ih := ih (fun c hc => hl c (mem_cons_of_mem _ hc)) n
      simp [cut, h1, h2, ih]

/-- **A read of the buffer is a read of the first line**, if it does not end in front of an
end-of-file character. -/
theorem Encodes.read {n : Nat} (h : Encodes m d ls) (cur : List Byte) (hd : d ≠ []) (hn : n ≠ 0)
    (hclean : ¬ ((∀ c ∈ d.take n, m.Plain c) ∧ d[n]? = some m.veof)) :
    (Lines.read n ⟨ls, cur⟩).1 = some (cut m n d).1 ∧
      (Lines.read n ⟨ls, cur⟩).2.cur = cur ∧
      Encodes m (cut m n d).2 (Lines.read n ⟨ls, cur⟩).2.lines := by
  cases h with
  | nil => exact absurd rfl hd
  | @eof l d ls hl h =>
    have hne : n ≠ l.length := by
      rintro rfl
      exact hclean (by simpa using hl)
    rw [cut_append hl, Lines.read_cons]
    rcases Nat.lt_or_gt_of_ne hne with hlt | hgt
    · rw [if_neg (by omega), show n - l.length = 0 by omega]
      refine ⟨by simp [cut], rfl, Encodes.eof (fun c hc => hl c (mem_of_mem_drop hc)) h⟩
    · obtain ⟨k, hk⟩ := Nat.exists_eq_succ_of_ne_zero (show n - l.length ≠ 0 by omega)
      rw [if_pos (by omega), hk]
      simp only [cut, if_true, take_of_length_le hgt.le, drop_of_length_le hgt.le]
      exact ⟨by simp, trivial, by simpa using h⟩
  | @newline l d ls hl hne h =>
    rw [cut_append hl, Lines.read_cons]
    by_cases hle : n ≤ l.length
    · rw [if_neg (by simp; omega), show n - l.length = 0 by omega]
      refine ⟨by simp [cut, take_append_of_le_length hle], rfl, ?_⟩
      simp only [cut, drop_append_of_le_length hle]
      exact Encodes.newline (fun c hc => hl c (mem_of_mem_drop hc)) hne h
    · obtain ⟨k, hk⟩ := Nat.exists_eq_succ_of_ne_zero (show n - l.length ≠ 0 by omega)
      rw [if_pos (by simp; omega), hk]
      simp only [cut, if_neg hne, if_true, take_of_length_le (Nat.le_of_not_le hle),
        drop_of_length_le (Nat.le_of_not_le hle)]
      exact ⟨trivial, trivial, by simpa using h⟩

end Cut

/-! ## The simulation -/

/-- The terminal holds the lines and the bytes being typed. -/
structure Holds (m : Termios) (t : Tty) (s : Lines) : Prop where
  inv : Inv t
  term : t.term = m
  lines : Encodes m t.queue.done s.lines
  cur : t.queue.pend = s.cur
  plain : ∀ c ∈ s.cur, m.Plain c

section Simulation

variable {m : Termios} {t : Tty} {s : Lines}

/-- **Every byte is typed into the lines.** -/
theorem Holds.input (h : Holds m t s) (hm : m.icanon = true) (hroom : t.held + 1 < ttyBuf)
    (c : Byte) : Holds m (ttyInput t c) (s.input m c) := by
  have hends : t.ends c = true → t.held < ttyBuf := fun _ => by omega
  have hheld := h.inv.ordered.held
  have hq := ttyInput_queue h.inv hends
  have hterm := (ttyInput_keeps t c).1.trans h.term
  rw [h.term] at hq
  suffices hshow : Encodes m (t.queue.input m c).done (s.input m c).lines ∧
      (t.queue.input m c).pend = (s.input m c).cur ∧ ∀ x ∈ (s.input m c).cur, m.Plain x by
    rw [← hq] at hshow
    exact ⟨h.inv.input hends, hterm, hshow.1, hshow.2.1, hshow.2.2⟩
  unfold Queue.input Lines.input Queue.finish
  generalize m.translate c = c
  simp only [hm, if_true, h.cur]
  by_cases hsig : m.signals c = true
  · rw [if_pos hsig, if_pos hsig]
    exact ⟨h.lines, rfl, nofun⟩
  rw [if_neg hsig, if_neg hsig]
  by_cases herase : c = m.verase ∨ c = 8
  · rw [if_pos herase, if_pos herase]
    exact ⟨h.lines, rfl, fun c hc => h.plain c (mem_of_mem_dropLast hc)⟩
  rw [if_neg herase, if_neg herase]
  by_cases hkill : c = m.vkill
  · rw [if_pos hkill, if_pos hkill]
    exact ⟨h.lines, rfl, nofun⟩
  rw [if_neg hkill, if_neg hkill]
  by_cases heof : c = m.veof
  · rw [if_pos (.inl heof), if_pos heof, heof, List.append_assoc]
    exact ⟨h.lines.concat (.eof h.plain .nil), rfl, nofun⟩
  by_cases hnl : c = newline
  · rw [if_pos (.inr hnl), if_neg heof, if_pos hnl, hnl, List.append_assoc]
    exact ⟨h.lines.concat (.newline h.plain (hnl ▸ heof) .nil), rfl, nofun⟩
  · rw [if_neg (not_or.2 ⟨heof, hnl⟩), if_neg heof, if_neg hnl, if_pos (by omega)]
    exact ⟨h.lines, rfl, forall_mem_append.2 ⟨h.plain, forall_mem_singleton.2 ⟨heof, hnl⟩⟩⟩

theorem Holds.read (h : Holds m t s) {n : Nat} (hn : n ≠ 0) (hclean : ¬ t.StopsAtEof n) :
    (canonRead n t).1 = (s.read n).1 ∧ Holds m (canonRead n t).2 (s.read n).2 := by
  unfold canonRead
  by_cases hr : t.r = t.w
  · have hls : s.lines = [] := h.lines.eq_nil_iff.1 (done_nil_iff.2 hr)
    rw [if_pos hr, Lines.read, hls]
    exact ⟨rfl, h⟩
  · rw [if_neg hr]
    obtain ⟨h1, h2, hterm⟩ := canonTake_cut n t
    rw [Tty.StopsAtEof, h.term] at hclean
    rw [h.term] at h1 h2
    obtain ⟨h3, h4, h5⟩ := h.lines.read s.cur (fun hd => hr (done_nil_iff.1 hd)) hn hclean
    refine ⟨by rw [h1]; exact h3.symm, ?_, hterm.trans h.term, by rw [h2]; exact h5, ?_, ?_⟩
    · exact (congrArg Queue.Fits h2).mpr (Queue.Fits.shrink h.inv (cut_length _ _) le_rfl)
    · rw [h2]
      exact h.cur.trans h4.symm
    · exact fun c hc => h.plain c (h4 ▸ hc)

theorem results_eq (hm : m.icanon = true) {acts : List Act} (h : Holds m t s)
    (hfull : NeverFull acts t) (hclean : Clean acts t) :
    ttyResults acts t = lineResults m acts s := by
  induction acts generalizing t s with
  | nil => rfl
  | cons act acts ih =>
    cases act with
    | input c => exact ih (h.input hm hfull.1 c) hfull.2 hclean
    | read n =>
      have hn : n.toNat ≠ 0 := by
        have := hfull.1
        bv_omega
      obtain ⟨h1, h2⟩ := h.read hn hclean.1
      exact congrArg₂ List.cons h1 (ih h2 hfull.2 hclean.2)

end Simulation

/-- A terminal with the given mode. -/
def Tty.start (console : Bool) (m : Termios) : Tty := { Tty.init console with term := m }

/-- **The canonical mode is a line discipline.**  For all control characters, every sequence of
input bytes that never fills the buffer and all reads between them: if no read ends right in front
of an end-of-file character that has bytes before it, then every read returns what it would return
from the lines. -/
theorem canonical_lines (console : Bool) {m : Termios} (hm : m.icanon = true) {acts : List Act}
    (hfull : NeverFull acts (.start console m)) (hclean : Clean acts (.start console m)) :
    ttyResults acts (.start console m) = lineResults m acts ⟨[], []⟩ := by
  have hq : (Tty.start console m).queue = ⟨[], []⟩ := congrArg₂ Queue.mk between_self between_self
  refine results_eq hm ⟨inv_init console, rfl, ?_, by rw [hq], ?_⟩ hfull hclean
  · rw [hq]
    exact Encodes.nil
  · exact nofun

/-- `ab` and a newline, read in two pieces, and an end-of-file character. -/
def sampleActs : List Act :=
  [.input 0x61, .input 0x62, .input newline, .input 4, .read 1, .read 8, .read 8, .read 8]

theorem canonical_lines_sample :
    ttyResults sampleActs (.start false .init) = lineResults .init sampleActs ⟨[], []⟩ ∧
      lineResults .init sampleActs ⟨[], []⟩ =
        [some [0x61], some [0x62, newline], some [], none] := by
  refine ⟨canonical_lines false rfl ?_ ?_, by decide⟩
  · refine ⟨?_, ?_, ?_, ?_, ?_, ?_, ?_, ?_, trivial⟩ <;> decide +kernel
  · refine ⟨?_, ?_, ?_, ?_, trivial⟩ <;> decide +kernel

/-- **End of file twice.**  `ab` and the end-of-file character, read with room for two bytes: the
end-of-file character stays in the buffer, and the next read returns 0 instead of waiting. -/
theorem eof_read_twice :
    ttyResults [.input 0x61, .input 0x62, .input 4, .read 2, .read 2] (.start false .init) =
      [some [0x61, 0x62], some []] ∧
    lineResults .init [.input 0x61, .input 0x62, .input 4, .read 2, .read 2] ⟨[], []⟩ =
      [some [0x61, 0x62], none] := by
  decide +kernel

end Tortoise.Terminals
