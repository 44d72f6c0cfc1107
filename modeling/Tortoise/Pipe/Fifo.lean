import Tortoise.Lib.Counters
import Tortoise.Pipe.Ends

/-!
# Pipes are queues

* `takeBytes_eq`, `pipeWrite_spec`: what the two copy loops do to the contents;
* `Fifo`: what has been read and what is in the buffer is what has been written, for every
  pipe in use;
* `Tags`: what a write returns is what it has written;
* `pipe_fifo`: all of this for every state that a run reaches, and when a read finds the end
  and a write finds no reader.
-/

namespace Tortoise.Pipes

open Function Lib List

variable {pending : Bool} {bs : List Byte} {n : Nat} {ev : Option Event} {c : WriteCall}

/-! ## The buffer -/

section

variable {p : Pipe} {b : Byte} {k n : Nat}

/-- How many bytes are in the buffer. -/
def Pipe.len (p : Pipe) : Nat := (p.nwrite - p.nread).toNat

theorem length_contents : p.contents.length = p.len := by simp [Pipe.contents, Pipe.len]

theorem pipeSize_dvd : pipeSize ∣ 2 ^ 32 := by decide

theorem len_eq_zero : p.len = 0 ↔ p.nread = p.nwrite := by
  unfold Pipe.len
  bv_omega

theorem contents_cons (h : p.nread ≠ p.nwrite) : p.contents =
    p.buf (p.nread.toNat % pipeSize) :: { p with nread := p.nread + 1 }.contents :=
  between_cons pipeSize_dvd h

theorem contents_nil (h : p.nread = p.nwrite) : p.contents = [] := by
  rw [← length_eq_zero_iff, length_contents]
  exact len_eq_zero.2 h

/-- **The copy loop of `pipe_read`** takes the front of the contents. -/
theorem takeBytes_eq (n : Nat) : ∀ p : Pipe, (takeBytes n p).1 = p.contents.take n ∧
    (takeBytes n p).2.contents = p.contents.drop n ∧ (takeBytes n p).2.readers = p.readers ∧
      (takeBytes n p).2.writers = p.writers ∧ (takeBytes n p).2.used = p.used ∧
      (takeBytes n p).2.len ≤ p.len := by
  induction n with
  | zero => exact fun p => ⟨rfl, rfl, rfl, rfl, rfl, le_rfl⟩
  | succ n ih =>
    intro p
    unfold takeBytes
    by_cases h : p.nread = p.nwrite
    · rw [if_pos h]
      simp [contents_nil h]
    · rw [if_neg h]
      obtain ⟨h1, h2, h3, h4, h5, h6⟩ := ih { p with nread := p.nread + 1 }
      have hlen : Pipe.len { p with nread := p.nread + 1 } ≤ p.len := by
        unfold Pipe.len
        simp only
        bv_omega
      rw [contents_cons h]
      exact ⟨congrArg (List.cons _) h1, h2, h3, h4, h5, h6.trans hlen⟩

theorem contents_put (h : p.len < pipeSize) : (p.put b).contents = p.contents ++ [b] ∧
    (p.put b).len = p.len + 1 := by
  refine ⟨between_succ pipeSize_dvd (by decide) h b, ?_⟩
  unfold pipeSize Pipe.len Pipe.put at *
  simp only
  bv_omega

/-- What a piece of `pipe_write` may do with the bytes `bs`: the first `k` go into the pipe. -/
structure Wrote (p : Pipe) (bs : List Byte) (i k : Nat) (r : Nat × Pipe × WriteEnd) : Prop where
  le : k ≤ bs.length
  pos : r.1 = i + k
  contents : r.2.1.contents = p.contents ++ bs.take k
  len : r.2.1.len ≤ pipeSize
  ends : r.2.1.readers = p.readers ∧ r.2.1.writers = p.writers ∧ r.2.1.used = p.used
  done : r.2.2 = .done → k = bs.length
  epipe : r.2.2 = .cut .epipe → p.readers = 0

theorem Wrote.stop {i : Nat} {e : WriteEnd} (hp : p.len ≤ pipeSize) (hd : e ≠ .done)
    (he : e = .cut .epipe → p.readers = 0) : Wrote p bs i 0 (i, p, e) :=
  ⟨Nat.zero_le _, rfl, by simp, hp, ⟨rfl, rfl, rfl⟩, fun h => absurd h hd, he⟩

/-- **The copy loop of `pipe_write`** appends what it counts. -/
theorem pipeWrite_spec (nb pend : Bool) (bs : List Byte) : ∀ (i : Nat) (p : Pipe),
    p.len ≤ pipeSize → ∃ k, Wrote p bs i k (pipeWrite nb pend bs i p) := by
  induction bs with
  | nil => exact fun i p hp => ⟨0, le_rfl, rfl, by simp [pipeWrite], hp, ⟨rfl, rfl, rfl⟩,
      fun _ => rfl, nofun⟩
  | cons b bs ih =>
    intro i p hp
    unfold pipeWrite
    split_ifs with hfull hr hpend hnb hr
    · exact ⟨0, Wrote.stop hp nofun fun _ => hr⟩
    · exact ⟨0, Wrote.stop hp nofun nofun⟩
    · exact ⟨0, Wrote.stop hp nofun nofun⟩
    · exact ⟨0, Wrote.stop hp nofun nofun⟩
    · exact ⟨0, Wrote.stop hp nofun fun _ => hr⟩
    · -- there is room for the next byte
      have hlt : p.len < pipeSize := by
        refine lt_of_le_of_ne hp fun he => hfull ?_
        apply BitVec.eq_of_toNat_eq
        exact he
      obtain ⟨hcont, hlen⟩ := contents_put (b := b) hlt
      obtain ⟨k, h⟩ := ih (i + 1) (p.put b) (by omega)
      refine ⟨k + 1, by simpa using h.le, ?_, ?_, h.len, h.ends, ?_, h.epipe⟩
      · rw [h.pos]
        omega
      · rw [h.contents, hcont]
        simp
      · intro hd
        simp [h.done hd]

end

/-! ## Every pipe is a queue -/

/-- What has been read from a pipe and what is in its buffer is what has been written. -/
structure Fifo (s : Sys) : Prop where
  fifo : ∀ i, (s.pipes i).used = true →
    (s.log (s.ids i)).got ++ (s.pipes i).contents = (s.log (s.ids i)).puts.map Prod.snd
  bound : ∀ i, (s.pipes i).used = true → (s.pipes i).len ≤ pipeSize
  old : ∀ i, (s.pipes i).used = true → s.ids i < s.nextId
  inj : ∀ i j, (s.pipes i).used = true → (s.pipes j).used = true → s.ids i = s.ids j → i = j
  fresh : ∀ id, s.nextId ≤ id → s.log id = ⟨[], []⟩

section

variable {s s' : Sys} {i f d p : Nat} {e : End} {slot : Slot}

theorem Fifo.congr (h : Fifo s) (hq : Quiet s { s with pipes := s'.pipes }) (hids : s'.ids = s.ids)
    (hnext : s'.nextId = s.nextId) (hlog : s'.log = s.log) : Fifo s' := by
  have hdata : ∀ i, (s'.pipes i).contents = (s.pipes i).contents ∧
      (s'.pipes i).len = (s.pipes i).len := by
    intro i
    obtain ⟨h1, h2, h3⟩ := hq.data i
    dsimp only at h1 h2 h3
    unfold Pipe.contents Pipe.len
    rw [h1, h2, h3]
    exact ⟨rfl, rfl⟩
  refine ⟨fun i hi => ?_, fun i hi => ?_, fun i hi => ?_, fun i j hi hj hij => ?_, fun id hid => ?_⟩
  · rw [hids, hlog, (hdata i).1]
    exact h.fifo i (hq.used i hi)
  · rw [(hdata i).2]
    exact h.bound i (hq.used i hi)
  · rw [hids, hnext]
    exact h.old i (hq.used i hi)
  · rw [hids] at hij
    exact h.inj i j (hq.used i hi) (hq.used j hj) hij
  · rw [hnext] at hid
    rw [hlog]
    exact h.fresh id hid

theorem Fifo.quiet (h : Fifo s) (hq : Quiet s s') : Fifo s' := by
  have hids := congrArg Sys.ids hq.only
  have hnext := congrArg Sys.nextId hq.only
  have hlog := congrArg Sys.log hq.only
  exact h.congr ⟨rfl, hq.data, hq.used⟩ hids hnext hlog

/-- A new pipe is empty, and nothing has happened to it. -/
theorem Fifo.newPipe (h : Fifo s) (r w : Int) : Fifo (s.newPipe i r w) := by
  have hpipes : ∀ j, (s.newPipe i r w).pipes j = if j = i then
      { Pipe.clear with used := true, readers := r, writers := w } else s.pipes j :=
    fun j => update_apply ..
  have hids : ∀ j, (s.newPipe i r w).ids j = if j = i then s.nextId else s.ids j :=
    fun j => update_apply ..
  have hnext : (s.newPipe i r w).nextId = s.nextId + 1 := rfl
  refine ⟨fun j hj => ?_, fun j hj => ?_, fun j hj => ?_, fun j k hj hk hjk => ?_, fun id hid => ?_⟩
  · rw [hpipes] at hj ⊢
    rw [hids]
    change (s.log _).got ++ _ = (s.log _).puts.map _
    split_ifs at hj ⊢ with hji
    · rw [h.fresh _ le_rfl]
      exact contents_nil rfl
    · exact h.fifo j hj
  · rw [hpipes] at hj ⊢
    split_ifs at hj ⊢ with hji
    · exact (len_eq_zero.2 rfl).le.trans (Nat.zero_le _)
    · exact h.bound j hj
  · rw [hpipes] at hj
    rw [hids, hnext]
    split_ifs at hj ⊢ with hji
    · omega
    · exact (h.old j hj).trans (Nat.lt_succ_self _)
  · rw [hpipes] at hj hk
    rw [hids, hids] at hjk
    split_ifs at hj hk hjk with hji hki hki
    · rw [hji, hki]
    · have := h.old k hk
      omega
    · have := h.old j hj
      omega
    · exact h.inj j k hj hk hjk
  · rw [hnext] at hid
    exact h.fresh id (by omega)

/-- One pipe and its log go on together. -/
theorem Fifo.setPipe {q : Pipe} {l : Log} (h : Fifo s) (hu : (s.pipes i).used = true)
    (hfifo : l.got ++ q.contents = l.puts.map Prod.snd) (hb : q.len ≤ pipeSize) :
    Fifo { s.setPipe i q with log := update s.log (s.ids i) l } := by
  have hpipes : ∀ j, (s.setPipe i q).pipes j = if j = i then q else s.pipes j :=
    fun j => update_apply ..
  have hlog : ∀ id, update s.log (s.ids i) l id = if id = s.ids i then l else s.log id :=
    fun id => update_apply ..
  have hused : ∀ j, ((s.setPipe i q).pipes j).used = true → (s.pipes j).used = true := by
    intro j hj
    rw [hpipes] at hj
    split_ifs at hj with hji
    · rw [hji]
      exact hu
    · exact hj
  refine ⟨fun j hj => ?_, fun j hj => ?_, fun j hj => h.old j (hused j hj),
    fun j k hj hk => h.inj j k (hused j hj) (hused k hk), fun id hid => ?_⟩
  · change (update s.log (s.ids i) l (s.ids j)).got ++ ((s.setPipe i q).pipes j).contents =
      (update s.log (s.ids i) l (s.ids j)).puts.map Prod.snd
    rw [hlog, hpipes]
    by_cases hji : j = i
    · rw [hji, if_pos rfl, if_pos rfl]
      exact hfifo
    · have hne : s.ids j ≠ s.ids i := fun he => hji (h.inj j i (hused j hj) hu he)
      rw [if_neg hne, if_neg hji]
      exact h.fifo j (hused j hj)
  · change ((s.setPipe i q).pipes j).len ≤ pipeSize
    rw [hpipes]
    split_ifs with hji
    · exact hb
    · exact h.bound j (hused j hj)
  · change update s.log (s.ids i) l id = _
    have hid' : s.nextId ≤ id := hid
    have hne : id ≠ s.ids i := by
      have := h.old i hu
      omega
    rw [hlog, if_neg hne]
    exact h.fresh id hid'

end

/-! ## What a write returns -/

/-- The bytes one call has written. -/
def Log.of (l : Log) (call : Nat) : List Byte := (l.puts.filter (·.1 = call)).map Prod.snd

/-- The bytes of call `n` are `bs`, and they are in pipe `id`. -/
def Sys.Put (s : Sys) (n id : Nat) (bs : List Byte) : Prop :=
  (s.log id).of n = bs ∧ ∀ id', id' ≠ id → (s.log id').of n = []

/-- How many bytes a result counts. -/
def count : Except Errno Nat → Nat
  | .ok k => k
  | .error _ => 0

/-- A write in progress has written what it says, and so has one that has returned. -/
structure Tags (s : Sys) : Prop where
  running : ∀ p c, s.procs p = .writing c → c.call < s.calls ∧ s.written c.call = none ∧
    s.Put c.call c.id (c.text.take (c.done + c.pos)) ∧ c.done ≤ c.text.length ∧
    c.pos ≤ c.chunk.length
  alone : ∀ p q c c', s.procs p = .writing c → s.procs q = .writing c' → c.call = c'.call → p = q
  old : ∀ id, ∀ k ∈ (s.log id).puts, k.1 < s.calls
  returned : ∀ n w, s.written n = some w → n < s.calls ∧ count w.result ≤ w.text.length ∧
    s.Put n w.id (w.text.take (count w.result))

section

variable {s s' : Sys} {p : Nat}

theorem Tags.congr (h : Tags s) (hp : ∀ p c, s'.procs p = .writing c → s.procs p = .writing c)
    (hlog : ∀ id, (s'.log id).puts = (s.log id).puts) (hcalls : s'.calls = s.calls)
    (hw : s'.written = s.written) : Tags s' := by
  have hput : ∀ n id bs, s'.Put n id bs ↔ s.Put n id bs := by
    intro n id bs
    unfold Sys.Put Log.of
    simp only [hlog]
  refine ⟨fun p c hc => ?_, fun p q c c' hc hc' => h.alone p q c c' (hp p c hc) (hp q c' hc'),
    fun id k hk => ?_, fun n w hn => ?_⟩
  · rw [hcalls, hw, hput]
    exact h.running p c (hp p c hc)
  · rw [hlog] at hk
    rw [hcalls]
    exact h.old id k hk
  · rw [hw] at hn
    rw [hcalls, hput]
    exact h.returned n w hn

/-- The steps that are not about calls. -/
def Op.silent : Op → Bool
  | .startRead .. | .startWrite .. | .run .. => false
  | _ => true

/-- What they are made of: new pipes, changes of counters, and changes of the tables that refer
to pipes. -/
inductive Turns : Sys → Sys → Prop
  | refl (s : Sys) : Turns s s
  | newPipe {s t : Sys} (i : Nat) (r w : Int) : Turns (s.newPipe i r w) t → Turns s t
  | quiet {s t u : Sys} : Quiet s t → Turns t u → Turns s u
  | tables {s t : Sys} (files : Nat → File) (devs : Nat → PipeDev) (slots : List (Slot × Nat)) :
      Turns { s with files, devs, slots } t → Turns s t

theorem Fifo.turns (h : Fifo s) (ht : Turns s s') : Fifo s' := by
  induction ht with
  | refl s => exact h
  | newPipe i r w _ ih => exact ih (h.newPipe r w)
  | quiet hq _ ih => exact ih (h.quiet hq)
  | tables files devs slots _ ih => exact ih (h.congr (Quiet.refl _) rfl rfl rfl)

/-- They leave calls and records alone. -/
theorem Turns.still (ht : Turns s s') : s'.procs = s.procs ∧ s'.log = s.log ∧
    s'.calls = s.calls ∧ s'.written = s.written := by
  induction ht with
  | refl s => exact ⟨rfl, rfl, rfl, rfl⟩
  | newPipe i r w _ ih => exact ih
  | quiet hq _ ih =>
    rw [hq.only] at ih
    exact ih
  | tables files devs slots _ ih => exact ih

theorem of_map_some {o : Option Sys} (h : o.map (·, none) = some (s', ev)) : o = some s' := by
  cases o with
  | none => cases h
  | some t =>
    cases h
    rfl

theorem step_turns {op : Op} (ho : op.silent = true) (hs : s.step op = some (s', ev)) :
    Turns s s' := by
  cases op with
  | startRead => cases ho
  | startWrite => cases ho
  | run => cases ho
  | pipe a b =>
    obtain ⟨i, r, w, -, -, -, -, -, -, rfl⟩ := sysPipe_some (of_map_some hs)
    exact .newPipe i 1 1 (.tables _ _ _ (.refl _))
  | dup src dst =>
    have ht := of_map_some hs
    unfold Sys.dup at ht
    obtain ⟨f, -, ht⟩ := Option.bind_eq_some_iff.1 ht
    split_ifs at ht
    cases ht
    exact .tables _ _ _ (.refl _)
  | close slot =>
    have ht := of_map_some hs
    unfold Sys.close at ht
    obtain ⟨f, -, ht⟩ := Option.bind_eq_some_iff.1 ht
    cases ht
    unfold Sys.fileClose
    simp only
    split_ifs
    · exact .tables _ _ _ (.refl _)
    · exact .quiet (Quiet.closeEnds (s.files f)) (.tables _ _ _ (.refl _))
    · exact .tables _ _ _ (.refl _)
  | attach =>
    obtain ⟨d, a, b, -, -, -, -, rfl⟩ := attach_some (of_map_some hs)
    exact .newPipe a 1 1 (.newPipe b 1 1 (.tables _ _ _ (.refl _)))
  | open9 d e r w slot =>
    have ht := of_map_some hs
    unfold Sys.open9 at ht
    obtain ⟨f, -, ht⟩ := Option.bind_eq_some_iff.1 ht
    split_ifs at ht
    cases ht
    have hrest (t : Sys) : Turns t (((t.addReader (Sys.endFile (s.devs d) e r w) 1).addWriter
        (Sys.endFile (s.devs d) e r w) 1).setFile f (Sys.endFile (s.devs d) e r w) |>.hold slot f) :=
      .quiet (Quiet.addReader _) (.quiet (Quiet.addWriter _) (.tables _ _ _ (.refl _)))
    unfold Sys.takeEnd
    split_ifs
    · exact hrest s
    · exact .tables s.files (update s.devs d ((s.devs d).setOpened e)) s.slots
        (.quiet (Quiet.dropHolder _ _) (hrest _))
  | release d =>
    have ht := of_map_some hs
    unfold Sys.release at ht
    simp only at ht
    split_ifs at ht
    cases ht
    exact .quiet (Quiet.dropUnopened (s.devs d) .data) (.quiet (Quiet.dropUnopened _ .data1)
      (.quiet Quiet.pipeCheck (.quiet Quiet.pipeCheck (.tables _ _ _ (.refl _)))))

/-! ## Calls -/

theorem Refs.setProc {a : Activity} (h : Refs s)
    (hr : ∀ c, a = .reading c → (s.files c.file).Reads c.pipe ∧ (s.files c.file).rid = c.id)
    (hw : ∀ c, a = .writing c → (s.files c.file).Writes c.pipe ∧ (s.files c.file).wid = c.id) :
    Refs (s.setProc p a) := by
  have hprocs : ∀ q, (s.setProc p a).procs q = if q = p then a else s.procs q :=
    fun q => update_apply ..
  refine ⟨h.file, h.rid, h.wid, h.dev, h.holder, h.slot, fun q c hc => ?_, fun q c hc => ?_⟩
  · rw [hprocs] at hc
    split_ifs at hc
    · exact hr c hc
    · exact h.reading q c hc
  · rw [hprocs] at hc
    split_ifs at hc
    · exact hw c hc
    · exact h.writing q c hc

/-- The pipe a call reads is in use, and it is still the one it was. -/
theorem Ends.reading {c : ReadCall} (h : Ends s) (hp : s.procs p = .reading c) :
    (s.pipes c.pipe).used = true ∧ s.ids c.pipe = c.id := by
  obtain ⟨hreads, hid⟩ := h.refs.reading p c hp
  exact ⟨h.used_of_reads hreads, (h.refs.rid c.file c.pipe hreads).trans hid⟩

theorem Ends.writing (h : Ends s) (hp : s.procs p = .writing c) :
    (s.pipes c.pipe).used = true ∧ s.ids c.pipe = c.id := by
  obtain ⟨hwrites, hid⟩ := h.refs.writing p c hp
  exact ⟨h.used_of_writes hwrites, (h.refs.wid c.file c.pipe hwrites).trans hid⟩

/-- All that holds in every state. -/
structure Good (s : Sys) : Prop where
  ends : Ends s
  fifo : Fifo s
  tags : Tags s

theorem Good.startRead {slot : Slot} {nb : Bool} (h : Good s)
    (hs : s.startRead p slot n nb = some s') : Good s' := by
  unfold Sys.startRead at hs
  obtain ⟨f, hf, hs⟩ := Option.bind_eq_some_iff.1 hs
  have h0 := h.ends.refs.ref_pos (mem_of_lookup_slot hf)
  split at hs
  · split_ifs at hs with hc
    cases hs
    rw [Bool.and_eq_true] at hc
    refine ⟨⟨h.ends.refs.setProc ?_ nofun, h.ends.books.congr rfl fun _ => rfl⟩,
      h.fifo.congr (Quiet.refl _) rfl rfl rfl, h.tags.congr ?_ (fun _ => rfl) rfl rfl⟩
    · intro c hcc
      cases hcc
      exact ⟨⟨h0, hc.1, hc.2, rfl⟩, rfl⟩
    · intro q c hq
      change update s.procs p _ q = _ at hq
      rw [update_apply] at hq
      split_ifs at hq
      exact hq
  · cases hs

theorem runRead_cases (s : Sys) (p : Nat) (c : ReadCall) (pending : Bool) :
    s.runRead p c pending = (s, none) ∨
      (∃ e, s.runRead p c pending = (s.setProc p .user, some (.read c (.error e)))) ∨
      ∃ q : Pipe, q.contents = (s.pipes c.pipe).contents.drop c.n ∧
        q.len ≤ (s.pipes c.pipe).len ∧ q.readers = (s.pipes c.pipe).readers ∧
        q.writers = (s.pipes c.pipe).writers ∧ q.used = (s.pipes c.pipe).used ∧
        ¬((s.pipes c.pipe).nread = (s.pipes c.pipe).nwrite ∧ 0 < (s.pipes c.pipe).writers) ∧
        s.runRead p c pending = ({ (s.setPipe c.pipe q).setProc p .user with
          log := update s.log c.id { s.log c.id with
            got := (s.log c.id).got ++ (s.pipes c.pipe).contents.take c.n } },
          some (.read c (.ok ((s.pipes c.pipe).contents.take c.n)))) := by
  unfold Sys.runRead pipeRead
  split_ifs with hempty hpend hnb
  · exact Or.inr (Or.inl ⟨_, rfl⟩)
  · exact Or.inr (Or.inl ⟨_, rfl⟩)
  · exact Or.inl rfl
  · obtain ⟨h1, h2, h3, h4, h5, h6⟩ := takeBytes_eq c.n (s.pipes c.pipe)
    refine Or.inr (Or.inr ⟨_, h2, h6, h3, h4, h5, hempty, ?_⟩)
    simp only [h1]

theorem Good.runRead {c : ReadCall} {r : Sys × Option Event} (h : Good s)
    (hp : s.procs p = .reading c) (hr : s.runRead p c pending = r) : Good r.1 := by
  subst hr
  obtain ⟨hused, hid'⟩ := h.ends.reading hp
  have huser : ∀ q d, (update s.procs p .user) q = .writing d → s.procs q = .writing d := by
    intro q d hq
    rw [update_apply] at hq
    split_ifs at hq
    exact hq
  rcases runRead_cases s p c pending with he | ⟨e, he⟩ | ⟨q, h1, h2, h3, h4, h5, -, he⟩
  · rw [he]
    exact h
  · rw [he]
    exact ⟨⟨h.ends.refs.setProc nofun nofun, h.ends.books.congr rfl fun _ => rfl⟩,
      h.fifo.congr (Quiet.refl _) rfl rfl rfl, h.tags.congr huser (fun _ => rfl) rfl rfl⟩
  · rw [he]
    have hrefs : Refs (s.setProc p .user) := h.ends.refs.setProc nofun nofun
    refine ⟨⟨{ hrefs with }, h.ends.sameEnds hused h3 h4 h5 rfl⟩, ?_, h.tags.congr huser ?_ rfl rfl⟩
    · have hf := h.fifo.setPipe (i := c.pipe) (q := q) (l := { s.log c.id with
        got := (s.log c.id).got ++ (s.pipes c.pipe).contents.take c.n }) hused (by
          have := h.fifo.fifo c.pipe hused
          rw [hid'] at this
          simp only
          rw [← this, h1, List.append_assoc, take_append_drop])
        (h2.trans (h.fifo.bound c.pipe hused))
      rw [hid'] at hf
      exact hf.congr (Quiet.refl _) rfl rfl rfl
    · intro id
      change (update s.log c.id _ id).puts = _
      rw [update_apply]
      split_ifs with hi
      · rw [hi]
      · rfl

/-! ## Writes -/

/-- A call writes: its own bytes grow, those of the others stay. -/
theorem Sys.Put.append {id : Nat} {new : List Byte} (h : s.Put n id bs)
    (hlog : s'.log = update s.log id
      { s.log id with puts := (s.log id).puts ++ new.map fun b => (n, b) }) :
    s'.Put n id (bs ++ new) := by
  obtain ⟨h1, h2⟩ := h
  constructor
  · rw [hlog, update_self]
    unfold Log.of at h1 ⊢
    simp only [filter_append, map_append, h1]
    congr 1
    rw [filter_eq_self.2 (by simp), map_map]
    exact map_id' new
  · intro id' hid
    rw [hlog, update_of_ne hid]
    exact h2 id' hid

theorem Sys.Put.other {m id id' : Nat} {new : List Byte} (h : s.Put m id' bs) (hmn : m ≠ n)
    (hlog : s'.log = update s.log id
      { s.log id with puts := (s.log id).puts ++ new.map fun b => (n, b) }) :
    s'.Put m id' bs := by
  have hof : ∀ j, (s'.log j).of m = (s.log j).of m := by
    intro j
    rw [hlog, update_apply]
    split_ifs with hj
    · unfold Log.of
      simp only [filter_append, map_append, hj]
      have hnil : (new.map fun b => (n, b)).filter (fun k => k.1 = m) = [] :=
        filter_eq_nil_iff.2 (by simp [Ne.symm hmn])
      rw [hnil, map_nil, append_nil]
    · rfl
  unfold Sys.Put at h ⊢
  simp only [hof]
  exact h

/-- The bytes a piece of a write adds. -/
theorem chunk_take {k : Nat} (hk : c.pos + k ≤ c.chunk.length) :
    c.text.take (c.done + c.pos) ++ (c.chunk.drop c.pos).take k =
      c.text.take (c.done + (c.pos + k)) := by
  unfold WriteCall.chunk at hk ⊢
  rw [length_take, length_drop] at hk
  rw [drop_take, take_take, Nat.min_eq_left (by omega), drop_drop, ← Nat.add_assoc,
    take_add (i := c.done + c.pos)]

/-- One process goes on with call `n`: it begins to write, writes or returns. -/
theorem Tags.setProc {a : Activity} (h : Tags s) (hprocs : s'.procs = update s.procs p a)
    (halone : ∀ q d, q ≠ p → s.procs q = .writing d → d.call ≠ n)
    (ha : ∀ d, a = .writing d → d.call = n ∧ s'.written n = none ∧
      s'.Put n d.id (d.text.take (d.done + d.pos)) ∧ d.done ≤ d.text.length ∧
      d.pos ≤ d.chunk.length)
    (hput : ∀ m id bs, m ≠ n → s.Put m id bs → s'.Put m id bs)
    (hold : ∀ id, ∀ k ∈ (s'.log id).puts, k.1 < s'.calls) (hcalls : s.calls ≤ s'.calls)
    (hn : n < s'.calls) (hw : ∀ m, m ≠ n → s'.written m = s.written m)
    (hret : ∀ w, s'.written n = some w → count w.result ≤ w.text.length ∧
      s'.Put n w.id (w.text.take (count w.result))) : Tags s' := by
  have hq : ∀ q d, s'.procs q = .writing d →
      q = p ∧ a = .writing d ∨ q ≠ p ∧ s.procs q = .writing d := by
    intro q d hd
    rw [hprocs, update_apply] at hd
    split_ifs at hd with hqp
    · exact Or.inl ⟨hqp, hd⟩
    · exact Or.inr ⟨hqp, hd⟩
  refine ⟨fun q d hd => ?_, fun q r d d' hd hd' hdd => ?_, hold, fun m w hm => ?_⟩
  · rcases hq q d hd with ⟨-, hd⟩ | ⟨hqp, hd⟩
    · obtain ⟨hcall, h1⟩ := ha d hd
      rw [hcall]
      exact ⟨hn, h1⟩
    · obtain ⟨h1, h2, h3, h4⟩ := h.running q d hd
      have hne := halone q d hqp hd
      rw [hw _ hne]
      exact ⟨h1.trans_le hcalls, h2, hput _ _ _ hne h3, h4⟩
  · rcases hq q d hd with ⟨rfl, hd⟩ | ⟨hqp, hd⟩ <;> rcases hq r d' hd' with ⟨rfl, hd'⟩ | ⟨hrp, hd'⟩
    · rfl
    · exact absurd (hdd.symm.trans (ha d hd).1) (halone r d' hrp hd')
    · exact absurd (hdd.trans (ha d' hd').1) (halone q d hqp hd)
    · exact h.alone q r d d' hd hd' hdd
  · by_cases hmn : m = n
    · rw [hmn] at hm ⊢
      exact ⟨hn, hret w hm⟩
    · rw [hw m hmn] at hm
      obtain ⟨h1, h2, h3⟩ := h.returned m w hm
      exact ⟨h1.trans_le hcalls, h2, hput _ _ _ hmn h3⟩

theorem Good.startWrite {slot : Slot} {text : List Byte} {nb : Bool} (h : Good s)
    (hs : s.startWrite p slot text nb = some s') : Good s' := by
  unfold Sys.startWrite at hs
  obtain ⟨f, hf, hs⟩ := Option.bind_eq_some_iff.1 hs
  have h0 := h.ends.refs.ref_pos (mem_of_lookup_slot hf)
  split at hs
  · rename_i huser
    split_ifs at hs with hc
    cases hs
    rw [Bool.and_eq_true] at hc
    have hrefs := h.ends.refs.setProc (p := p) (a := .writing
      ⟨f, (s.files f).wpipe, (s.files f).wid, s.calls, text, 0, 0, nb⟩) nofun (by
        intro c hcc
        cases hcc
        exact ⟨⟨h0, hc.1, hc.2, rfl⟩, rfl⟩)
    refine ⟨⟨{ hrefs with }, h.ends.books.congr rfl fun _ => rfl⟩,
      h.fifo.congr (Quiet.refl _) rfl rfl rfl, ?_⟩
    have hnew : ∀ id, (s.log id).of s.calls = [] := by
      intro id
      unfold Log.of
      rw [filter_eq_nil_iff.2, map_nil]
      intro k hk
      have := h.tags.old id k hk
      simp only [decide_eq_true_eq]
      omega
    have hnone : s.written s.calls = none :=
      Option.eq_none_iff_forall_ne_some.2 fun w hw => (h.tags.returned _ w hw).1.false
    refine h.tags.setProc (n := s.calls) rfl (fun q d _ hd => (h.tags.running q d hd).1.ne) ?_
      (fun _ _ _ _ hput => hput) (fun id k hk => (h.tags.old id k hk).trans (Nat.lt_succ_self _))
      (Nat.le_succ _) (Nat.lt_succ_self _) (fun _ _ => rfl) fun w hw => by cases hnone.symm.trans hw
    intro c hcc
    cases hcc
    exact ⟨rfl, hnone, ⟨hnew _, fun id _ => hnew id⟩, Nat.zero_le _, Nat.zero_le _⟩
  · cases hs

/-- How a piece of a write ends: it sleeps, goes on with the next chunk, or returns. -/
theorem runWrite_cases (c : WriteCall) (pending : Bool)
    (hlen : (s.pipes c.pipe).len ≤ pipeSize) (hpos : c.pos ≤ c.chunk.length) :
    ∃ k q, c.pos + k ≤ c.chunk.length ∧
      q.contents = (s.pipes c.pipe).contents ++ (c.chunk.drop c.pos).take k ∧ q.len ≤ pipeSize ∧
      q.readers = (s.pipes c.pipe).readers ∧ q.writers = (s.pipes c.pipe).writers ∧
      q.used = (s.pipes c.pipe).used ∧
      (s.runWrite p c pending =
          ((s.wrote c q k).setProc p (.writing { c with pos := c.pos + k }), none) ∨
        (c.pos + k = c.chunk.length ∧ c.done + c.chunk.length < c.text.length ∧
          s.runWrite p c pending = ((s.wrote c q k).setProc p (.writing { c with
            pipe := (s.files c.file).wpipe
            id := (s.files c.file).wid
            done := c.done + c.chunk.length
            pos := 0 }), none)) ∨
        ∃ result, count result = c.done + (c.pos + k) ∧
          (result = .error .epipe → (s.pipes c.pipe).readers = 0) ∧
          s.runWrite p c pending = (s.wrote c q k).finish p c result) := by
  obtain ⟨k, hk⟩ := pipeWrite_spec c.nonblock pending (c.chunk.drop c.pos) c.pos (s.pipes c.pipe) hlen
  have hle := hk.le
  rw [length_drop] at hle
  refine ⟨k, _, by omega, hk.contents, hk.len, hk.ends.1, hk.ends.2.1, hk.ends.2.2, ?_⟩
  unfold Sys.runWrite
  simp only [hk.pos, Nat.add_sub_cancel_left]
  cases hend : (pipeWrite c.nonblock pending (c.chunk.drop c.pos) c.pos (s.pipes c.pipe)).2.2 with
  | sleep => exact Or.inl rfl
  | cut e =>
    refine Or.inr (Or.inr ⟨_, ?_, ?_, rfl⟩)
    · split_ifs with h0
      · exact h0.symm
      · rfl
    · intro he
      split_ifs at he with h0
      cases he
      exact hk.epipe hend
  | done =>
    have hfull : c.pos + k = c.chunk.length := by
      have := hk.done hend
      rw [length_drop] at this
      omega
    simp only
    split_ifs with hmore
    · exact Or.inr (Or.inl ⟨hfull, hmore.1, rfl⟩)
    · exact Or.inr (Or.inr ⟨.ok (c.done + c.chunk.length), by rw [hfull]; rfl, nofun, rfl⟩)

theorem Good.runWrite {r : Sys × Option Event} (h : Good s) (hp : s.procs p = .writing c)
    (hr : s.runWrite p c pending = r) : Good r.1 := by
  subst hr
  obtain ⟨hwrites, hid⟩ := h.ends.refs.writing p c hp
  obtain ⟨hused, hid'⟩ := h.ends.writing hp
  obtain ⟨hlt, hnone, hcput, hcdone, hcpos⟩ := h.tags.running p c hp
  obtain ⟨k, q, hk, h1, h2, h3, h4, h5, hcases⟩ :=
    runWrite_cases (s := s) (p := p) c pending (h.fifo.bound c.pipe hused) hcpos
  have hdone : c.done + (c.pos + k) ≤ c.text.length := by
    unfold WriteCall.chunk at hk
    rw [length_take, length_drop] at hk
    omega
  -- the pipe and its log, whoever goes on
  have hfifo : Fifo (s.wrote c q k) := by
    have hf := h.fifo.setPipe (i := c.pipe) (q := q) (l := { s.log c.id with
      puts := (s.log c.id).puts ++ ((c.chunk.drop c.pos).take k).map fun b => (c.call, b) }) hused (by
        have := h.fifo.fifo c.pipe hused
        rw [hid'] at this
        simp only
        rw [h1, ← List.append_assoc, this, map_append, map_map]
        congr 1
        exact (map_id' _).symm) h2
    rw [hid'] at hf
    exact hf
  have hbooks : Books (s.wrote c q k) s.readEnds s.writeEnds :=
    h.ends.sameEnds hused h3 h4 h5 rfl
  have hother : ∀ n id bs, n ≠ c.call → s.Put n id bs → (s.wrote c q k).Put n id bs :=
    fun n id bs hn hput => hput.other hn rfl
  have hnew : (s.wrote c q k).Put c.call c.id (c.text.take (c.done + (c.pos + k))) := by
    rw [← chunk_take hk]
    exact hcput.append rfl
  have hold : ∀ id, ∀ m ∈ ((s.wrote c q k).log id).puts, m.1 < s.calls := by
    intro id m hm
    change m ∈ (update s.log c.id _ id).puts at hm
    rw [update_apply] at hm
    split_ifs at hm with hi
    · rcases mem_append.1 hm with hm | hm
      · exact h.tags.old c.id m hm
      · obtain ⟨b, -, rfl⟩ := mem_map.1 hm
        exact hlt
    · exact h.tags.old id m hm
  have halone : ∀ q d, q ≠ p → s.procs q = .writing d → d.call ≠ c.call :=
    fun q d hqp hd he => hqp (h.tags.alone q p d c hd hp he)
  have hgo : ∀ c' : WriteCall, c'.call = c.call → c'.file = c.file →
      c'.pipe = (s.files c.file).wpipe → c'.id = (s.files c.file).wid → c'.text = c.text →
      c'.done + c'.pos = c.done + (c.pos + k) →
      (c'.done ≤ c'.text.length ∧ c'.pos ≤ c'.chunk.length) →
      Good ((s.wrote c q k).setProc p (.writing c')) := by
    intro c' hcall hfile hpipe hcid htext hsum hle
    have hrefs := h.ends.refs.setProc (p := p) (a := .writing c') nofun (by
      intro d hd
      cases hd
      rw [hfile, hpipe, hcid]
      exact ⟨⟨hwrites.1, hwrites.2.1, hwrites.2.2.1, rfl⟩, rfl⟩)
    refine ⟨⟨{ hrefs with }, hbooks.congr rfl fun _ => rfl⟩,
      hfifo.congr (Quiet.refl _) rfl rfl rfl,
      h.tags.setProc rfl halone ?_ hother hold le_rfl hlt (fun _ _ => rfl)
        fun w hw => by cases hnone.symm.trans hw⟩
    intro d hd
    cases hd
    refine ⟨hcall, hnone, ?_, hle⟩
    rw [hcid, hid, htext, hsum]
    exact hnew
  rcases hcases with he | ⟨hfull, hmore, he⟩ | ⟨result, hcount, -, he⟩
  · rw [he]
    refine hgo _ rfl rfl hwrites.2.2.2.symm hid.symm rfl ?_ ⟨hcdone, hk⟩
    simp only
  · rw [he]
    refine hgo _ rfl rfl rfl rfl rfl ?_ ⟨hmore.le, Nat.zero_le _⟩
    simp only
    omega
  · rw [he]
    have hrefs : Refs (s.setProc p .user) := h.ends.refs.setProc nofun nofun
    refine ⟨⟨{ hrefs with }, hbooks.congr rfl fun _ => rfl⟩,
      hfifo.congr (Quiet.refl _) rfl rfl rfl,
      h.tags.setProc rfl halone nofun hother hold le_rfl hlt (fun m hm => update_of_ne hm ..) ?_⟩
    intro w hw
    cases (update_self ..).symm.trans hw
    rw [hcount]
    exact ⟨hdone, hnew⟩

/-! ## Runs -/

/-- **One step** keeps all of it. -/
theorem Good.step {op : Op} (h : Good s) (hm : s.Meets op) (hs : s.step op = some (s', ev)) :
    Good s' := by
  have hsilent : op.silent = true → Ends s' → Good s' := fun ho he => by
    have ht := step_turns ho hs
    obtain ⟨h1, h2, h3, h4⟩ := ht.still
    exact ⟨he, h.fifo.turns ht, h.tags.congr (fun p c hp => by rw [← h1]; exact hp)
      (fun id => by rw [h2]) h3 h4⟩
  cases op with
  | pipe a b =>
    exact hsilent rfl (h.ends.sysPipe (of_map_some hs))
  | dup src dst =>
    exact hsilent rfl (h.ends.dup (of_map_some hs))
  | close slot =>
    exact hsilent rfl (h.ends.close hm (of_map_some hs))
  | attach =>
    exact hsilent rfl (h.ends.attach (of_map_some hs))
  | open9 d e r w slot =>
    exact hsilent rfl (h.ends.open9 hm (of_map_some hs))
  | release d =>
    exact hsilent rfl (h.ends.release (of_map_some hs))
  | startRead p slot n nb =>
    exact h.startRead (of_map_some hs)
  | startWrite p slot text nb =>
    exact h.startWrite (of_map_some hs)
  | run p pending =>
    have hs' : s.run p pending = some (s', ev) := hs
    unfold Sys.run at hs'
    split at hs'
    · cases hs'
    · rename_i c hp
      exact h.runRead hp (Option.some.inj hs')
    · rename_i c hp
      exact h.runWrite hp (Option.some.inj hs')

theorem Good.init : Good .init where
  ends :=
    { refs := ⟨nofun, (fun f i hf => by cases hf.1), (fun f i hf => by cases hf.1), nofun,
        (fun d e hd => by cases hd.1), fun f => rfl, nofun, nofun⟩
      books := ⟨nofun, fun i _ => by
        constructor
        · simp [Sys.readEnds, tally, Sys.init, File.reads, File.Reads, File.none, PipeDev.reads,
            PipeDev.Holds, PipeDev.none]
        · simp [Sys.writeEnds, tally, Sys.init, File.writes, File.Writes, File.none, PipeDev.writes,
            PipeDev.Holds, PipeDev.none]⟩ }
  fifo := ⟨nofun, nofun, nofun, nofun, fun _ _ => rfl⟩
  tags := ⟨nofun, nofun, (fun id k hk => by cases hk), nofun⟩

/-- **Every state of a run.** -/
theorem Reach.good (h : Reach s) : Good s := by
  induction h with
  | init => exact Good.init
  | step _ hm hs ih => exact ih.step hm hs

/-! ## What the users of a pipe see -/

/-- Some descriptor is open for reading the pipe. -/
def Sys.Reader (s : Sys) (id : Nat) : Prop := ∃ slot f, (slot, f) ∈ s.slots ∧
  (s.files f).isPipe = true ∧ (s.files f).readable = true ∧ (s.files f).rid = id

/-- Some descriptor is open for writing the pipe. -/
def Sys.Writer (s : Sys) (id : Nat) : Prop := ∃ slot f, (slot, f) ∈ s.slots ∧
  (s.files f).isPipe = true ∧ (s.files f).writable = true ∧ (s.files f).wid = id

/-- The bytes read from pipe `id` and those in the buffer `q` are the bytes written. -/
def Sys.Queue (s : Sys) (id : Nat) (q : Pipe) : Prop :=
  (s.log id).got ++ q.contents = (s.log id).puts.map Prod.snd ∧ q.contents.length ≤ pipeSize

theorem Good.no_writer {c : ReadCall} (h : Good s) (hp : s.procs p = .reading c)
    (hw : (s.pipes c.pipe).writers ≤ 0) : ¬s.Writer c.id := by
  obtain ⟨hused, hid'⟩ := h.ends.reading hp
  rintro ⟨slot, f, hmem, hpipe, hwr, hwid⟩
  have hwrites : (s.files f).Writes (s.files f).wpipe :=
    ⟨h.ends.refs.ref_pos hmem, hpipe, hwr, rfl⟩
  have hused' := h.ends.used_of_writes hwrites
  -- the same number is the same pipe
  have hsame : (s.files f).wpipe = c.pipe := h.fifo.inj _ _ hused' hused (by
    rw [h.ends.refs.wid f _ hwrites, hwid, hid'])
  have hpos := writeEnds_file (h.ends.refs.file f hwrites.1) hwrites
  rw [hsame, ← (h.ends.books.counted c.pipe hused).2] at hpos
  omega

theorem Good.no_reader (h : Good s) (hp : s.procs p = .writing c)
    (hr : (s.pipes c.pipe).readers = 0) : ¬s.Reader c.id := by
  obtain ⟨hused, hid'⟩ := h.ends.writing hp
  rintro ⟨slot, f, hmem, hpipe, hrd, hrid⟩
  have hreads : (s.files f).Reads (s.files f).pipe := ⟨h.ends.refs.ref_pos hmem, hpipe, hrd, rfl⟩
  have hused' := h.ends.used_of_reads hreads
  have hsame : (s.files f).pipe = c.pipe := h.fifo.inj _ _ hused' hused (by
    rw [h.ends.refs.rid f _ hreads, hrid, hid'])
  have hpos := readEnds_file (h.ends.refs.file f hreads.1) hreads
  rw [hsame, ← (h.ends.books.counted c.pipe hused).1] at hpos
  omega

theorem Good.runWrite_event {t : Sys} {ev : Event} (h : Good s) (hp : s.procs p = .writing c)
    (hr : s.runWrite p c pending = (t, some ev)) : ∃ result, ev = .write c result ∧
      (result = .error .epipe → (s.pipes c.pipe).readers = 0) := by
  obtain ⟨k, q, -, -, -, -, -, -, hcases⟩ := runWrite_cases (s := s) (p := p) c pending
    (h.fifo.bound c.pipe (h.ends.writing hp).1) (h.tags.running p c hp).2.2.2.2
  rcases hcases with he | ⟨-, -, he⟩ | ⟨result, -, hepipe, he⟩ <;> rw [he] at hr <;> cases hr
  exact ⟨result, rfl, hepipe⟩

/-- A read that returns nothing has found the end. -/
theorem Good.read_zero {c : ReadCall} {t : Sys} (h : Good s)
    (hr : s.run p pending = some (t, some (.read c (.ok [])))) (hn : 0 < c.n) :
    (s.pipes c.pipe).contents = [] ∧ ¬s.Writer c.id := by
  unfold Sys.run at hr
  split at hr
  · cases hr
  · rename_i d hp
    rcases runRead_cases s p d pending with he | ⟨e, he⟩ | ⟨q, -, -, -, -, -, hempty, he⟩
    · rw [he] at hr
      cases hr
    · rw [he] at hr
      cases hr
    · rw [he] at hr
      simp only [Option.some.injEq, Prod.mk.injEq, Event.read.injEq, Except.ok.injEq] at hr
      obtain ⟨-, rfl, hnil⟩ := hr
      have hcont : (s.pipes d.pipe).contents = [] := by
        rw [take_eq_nil_iff] at hnil
        rcases hnil with hnil | hnil
        · omega
        · exact hnil
      refine ⟨hcont, h.no_writer hp ?_⟩
      have hzero : (s.pipes d.pipe).nread = (s.pipes d.pipe).nwrite := by
        rw [← len_eq_zero, ← length_contents, hcont]
        rfl
      by_contra hpos
      exact hempty ⟨hzero, by omega⟩
  · rename_i d hp
    obtain ⟨result, he, -⟩ := h.runWrite_event hp (Option.some.inj hr)
    cases he

/-- A write that fails with `EPIPE` has found no reader. -/
theorem Good.write_epipe {t : Sys} (h : Good s)
    (hr : s.run p pending = some (t, some (.write c (.error .epipe)))) : ¬s.Reader c.id := by
  unfold Sys.run at hr
  split at hr
  · cases hr
  · rename_i d hp
    rcases runRead_cases s p d pending with he | ⟨e, he⟩ | ⟨q, -, -, -, -, -, -, he⟩ <;>
      rw [he] at hr <;> cases hr
  · rename_i d hp
    obtain ⟨result, he, hepipe⟩ := h.runWrite_event hp (Option.some.inj hr)
    cases he
    exact h.no_reader hp (hepipe rfl)

end

/-- **Pipes are bounded queues**, in every state of a run that meets the condition: through
every descriptor the bytes read and the bytes in the buffer are those written; a write has
put into the pipe exactly the bytes it counts; a read finds the end only when the pipe is
empty and nobody can write; a write finds a broken pipe only when nobody can read. -/
theorem pipe_fifo {s : Sys} (h : Reach s) :
    (∀ slot f, (slot, f) ∈ s.slots → (s.files f).isPipe = true →
      ((s.files f).readable = true → s.Queue (s.files f).rid (s.pipes (s.files f).pipe)) ∧
      ((s.files f).writable = true → s.Queue (s.files f).wid (s.pipes (s.files f).wpipe))) ∧
    (∀ n w, s.written n = some w → count w.result ≤ w.text.length ∧
      s.Put n w.id (w.text.take (count w.result))) ∧
    (∀ p c, s.procs p = .writing c → s.Put c.call c.id (c.text.take (c.done + c.pos))) ∧
    (∀ p pending c t, s.run p pending = some (t, some (.read c (.ok []))) → 0 < c.n →
      (s.pipes c.pipe).contents = [] ∧ ¬s.Writer c.id) ∧
    (∀ p pending c t, s.run p pending = some (t, some (.write c (.error .epipe))) →
      ¬s.Reader c.id) := by
  have hg := h.good
  refine ⟨fun slot f hmem hpipe => ⟨fun hr => ?_, fun hw => ?_⟩,
    fun n w hn => (hg.tags.returned n w hn).2, fun p c hp => (hg.tags.running p c hp).2.2.1,
    fun p pending c t hr hn => hg.read_zero hr hn, fun p pending c t hr => hg.write_epipe hr⟩
  · have hreads : (s.files f).Reads (s.files f).pipe :=
      ⟨hg.ends.refs.ref_pos hmem, hpipe, hr, rfl⟩
    have hused := hg.ends.used_of_reads hreads
    have hfifo := hg.fifo.fifo _ hused
    rw [hg.ends.refs.rid f _ hreads] at hfifo
    exact ⟨hfifo, length_contents.trans_le (hg.fifo.bound _ hused)⟩
  · have hwrites : (s.files f).Writes (s.files f).wpipe :=
      ⟨hg.ends.refs.ref_pos hmem, hpipe, hw, rfl⟩
    have hused := hg.ends.used_of_writes hwrites
    have hfifo := hg.fifo.fifo _ hused
    rw [hg.ends.refs.wid f _ hwrites] at hfifo
    exact ⟨hfifo, length_contents.trans_le (hg.fifo.bound _ hused)⟩

/-- Two processes make a pipe, write two bytes and read one. -/
def shortRun : List Op :=
  [.pipe (1, 0) (2, 0), .startWrite 2 (2, 0) [0x61, 0x62] false, .run 2 false,
    .startRead 1 (1, 0) 1 false, .run 1 false]

theorem Reach.steps {ops : List Op} (ho : ∀ op ∈ ops, op ∈ shortRun) : ∀ {s s' : Sys}, Reach s →
    s.steps ops = some s' → Reach s' := by
  induction ops with
  | nil =>
    intro s s' h hs
    cases hs
    exact h
  | cons op ops ih =>
    intro s s' h hs
    obtain ⟨r, hr, hs⟩ := Option.bind_eq_some_iff.1 hs
    have hm : s.Meets op := by
      have hop := ho op mem_cons_self
      simp only [shortRun, mem_cons, not_mem_nil, or_false] at hop
      rcases hop with rfl | rfl | rfl | rfl | rfl <;> trivial
    exact ih (fun op' hop' => ho op' (mem_cons_of_mem op hop')) (.step h hm hr) hs

theorem pipe_fifo_short : ∃ s, Sys.init.steps shortRun = some s ∧ ∃ f, ((1, 0), f) ∈ s.slots ∧
    s.Queue (s.files f).rid (s.pipes (s.files f).pipe) ∧
      (s.log (s.files f).rid).got = [0x61] ∧ (s.pipes (s.files f).pipe).contents = [0x62] := by
  have hrun : (Sys.init.steps shortRun).map (fun s => (s.slots.lookup (1, 0), (s.files 0).isPipe,
      (s.files 0).readable, (s.log (s.files 0).rid).got, (s.pipes (s.files 0).pipe).contents)) =
      some (some 0, true, true, [0x61], [0x62]) := by decide +kernel
  obtain ⟨s, hs, hview⟩ := Option.map_eq_some_iff.1 hrun
  simp only [Prod.mk.injEq] at hview
  obtain ⟨hslot, hpipe, hread, hgot, hcont⟩ := hview
  have hmem := mem_of_lookup_slot hslot
  exact ⟨s, hs, 0, hmem, ((pipe_fifo (Reach.steps (fun _ h => h) .init hs)).1 _ 0 hmem hpipe).1 hread,
    hgot, hcont⟩

/-- **The counts are exact** in every state of a run: the references to a file are the descriptors
that name it, the readers and writers of a pipe in use are the files and place holders that hold
its ends, and a pipe that is not in use has none. -/
theorem counts_exact {s : Sys} (h : Reach s) :
    (∀ f, (s.files f).ref = s.slots.countP fun k => k.2 = f) ∧
    ∀ i, ((s.pipes i).used = true → (s.pipes i).readers = s.readEnds i ∧
      (s.pipes i).writers = s.writeEnds i) ∧
      ((s.pipes i).used = false → s.readEnds i = 0 ∧ s.writeEnds i = 0) :=
  have he := h.good.ends
  ⟨he.refs.slot, fun i => ⟨he.books.counted i, he.books.idle i⟩⟩

theorem counts_exact_short : ∃ s, Sys.init.steps shortRun = some s ∧
    (s.files 0).ref = s.slots.countP fun k => k.2 = 0 := by
  have h : (Sys.init.steps shortRun).isSome := by decide +kernel
  obtain ⟨s, hs⟩ := Option.isSome_iff_exists.1 h
  exact ⟨s, hs, (counts_exact (Reach.steps (fun _ h => h) .init hs)).1 0⟩

/-- Both ends of a device are opened, closed and opened again, a byte is written, and then
somebody asks for a pipe. -/
def reopenRun : List Op :=
  [.attach, .open9 0 .data true true (1, 0), .open9 0 .data1 true true (1, 1), .close (1, 0),
    .close (1, 1), .open9 0 .data true true (1, 0), .open9 0 .data1 true true (1, 1),
    .startWrite 1 (1, 0) [0x78] false, .run 1 false, .pipe (2, 0) (2, 1)]

/-- **The byte is lost**: the second `open` uses pipes that `pipe_check` has given up, and
`sys_pipe` takes one of them and clears it. -/
theorem reopened_pipe_loses_byte : ∃ s f, Sys.init.steps reopenRun = some s ∧
    ((1, 1), f) ∈ s.slots ∧ (s.files f).isPipe = true ∧ (s.files f).readable = true ∧
      (s.log (s.files f).rid).puts = [(0, 0x78)] ∧
      ¬s.Queue (s.files f).rid (s.pipes (s.files f).pipe) := by
  have hrun : (Sys.init.steps reopenRun).map (fun s => ((s.slots.lookup (1, 1),
      (s.files 1).isPipe, (s.files 1).readable), (s.log (s.files 1).rid).puts,
      (s.log (s.files 1).rid).got, (s.pipes (s.files 1).pipe).contents)) =
      some ((some 1, true, true), [(0, 0x78)], [], []) := by decide +kernel
  obtain ⟨s, hs, hview⟩ := Option.map_eq_some_iff.1 hrun
  simp only [Prod.mk.injEq] at hview
  obtain ⟨⟨hslot, hpipe, hread⟩, hputs, hgot, hcont⟩ := hview
  refine ⟨s, 1, hs, mem_of_lookup_slot hslot, hpipe, hread, hputs, ?_⟩
  rintro ⟨hq, -⟩
  rw [hputs, hgot, hcont] at hq
  cases hq

/-- A process sleeps in a read, another one closes its descriptor through `/proc`, gives up
the pipe and makes a new one. -/
def closedRun : List Op :=
  [.pipe (1, 0) (2, 0), .startRead 1 (1, 0) 1 false, .run 1 false, .close (1, 0), .close (2, 0),
    .pipe (2, 0) (2, 1), .startWrite 2 (2, 1) [0x79] false, .run 2 false, .run 1 false]

/-- **The sleeper reads from the new pipe**: nothing has been written to the pipe it was
reading, and a byte has come out. -/
theorem sleeping_reader_changes_pipe :
    (Sys.init.steps closedRun).map (fun s => ((s.log 1).puts, (s.log 1).got)) =
      some ([], [0x79]) := by
  decide +kernel

end Tortoise.Pipes
