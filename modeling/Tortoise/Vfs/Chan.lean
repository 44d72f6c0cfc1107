import Tortoise.Lib.Resume

/-!
# Channels to file servers

The kernel of `src/os/kernel` is not preempted: a routine gives up the processor only where it
sleeps.  On a mounted 9P server every operation sleeps, in `rpc` of `mnt.c`.  A channel has one
reply buffer `rb` for all routines and a flag `busy`; a routine waits until the flag is clear,
sets it, exchanges messages with the server and clears the flag when it has read the reply.

Files, directories and servers do not change while the routines run (`Fsys`): a server answers a
request by what it asks for.  Signals and servers that hang up are left out.

* `RpcWork`: the steps of `rpc` at which other routines can run.
* `Kept`: no two routines have the same channel, and a reply that waits in the buffer of a channel
  is to the request of the routine that has it.  Every step keeps this (`Kept.rpc`,
  `Kept.release`), so a reply is the server's reply to the routine's own request, whatever the
  others do (`Kept.own_reply`).
-/

namespace Tortoise.Vfs

open Function Lib.Resume List

abbrev Byte := BitVec 8

/-! ## Vnodes and servers -/

/-- The field of `Stat2` that is looked at. -/
structure Stat where
  size : BitVec 32
  deriving DecidableEq

/-- The requests to a 9P server.  A fid stands for the file it was walked to. -/
inductive Req (V : Type) where
  | clone (v : V)
  | opens (v : V)
  | read (v : V) (off n : Nat)
  | stat (v : V)
  | clunk

/-- The replies. -/
inductive Reply (V : Type) where
  | error (e : Int)
  | ok
  | data (b : List Byte)
  | stat (st : Stat)

/-- The file systems as they are while the routines run. -/
structure Fsys (V C : Type) where
  /-- The channel of a vnode on a 9P mount. -/
  chan : V → Option C
  /-- The most data a message of the channel can carry, `msize - IOHDRSZ`. -/
  room : C → Nat
  /-- What a server answers. -/
  server : C → Req V → Reply V
  /-- `getattr` of the other file systems; nothing when it fails. -/
  attr : V → Option Stat
  /-- `read` of the other file systems: the bytes, or the error. -/
  data : V → Nat → Nat → Except Int (List Byte)

def eio : Int := -5
def enoexec : Int := -8
def enomem : Int := -12
def einval : Int := -22

/-! ## Channels -/

/-- The part of the channels that routines share. -/
structure Chans (V C : Type) where
  busy : C → Bool
  rb : C → Reply V

/-- How far `rpc` has come: it waits, it has the channel, or the reply is in the buffer. -/
inductive Phase (C : Type) where
  | idle
  | holding (c : C)
  | answered (c : C)

/-- The channel a routine has taken. -/
def Phase.chan {C : Type} : Phase C → Option C
  | .idle => none
  | .holding c => some c
  | .answered c => some c

variable {V C : Type} (F : Fsys V C)

/-- The steps of `rpc` before the reply is read: taking the channel when it is not busy, and the
exchange with the server. -/
inductive RpcWork [DecidableEq C] (c : C) (t : Req V) : Phase C → Chans V C → Phase C → Chans V C → Prop
  | take (s : Chans V C) : s.busy c = false →
      RpcWork c t .idle s (.holding c) { s with busy := update s.busy c true }
  | reply (s : Chans V C) :
      RpcWork c t (.holding c) s (.answered c)
        { s with rb := update s.rb c (F.server c t) }

def chanDone [DecidableEq C] (c : C) (s : Chans V C) : Chans V C :=
  { s with busy := update s.busy c false }

/-- `io` of `mnt.c` for reading without an open file, for routines that make their requests with
`rpc` and copy data to their buffer with `store`: a fid of its own is opened, read from once and
given back. -/
def ioRead {Q : Type} {A : Q → Type} (rpc : C → Req V → Prog Q A (Reply V))
    (store : List Byte → Prog Q A Unit) (c : C) (v : V) (off n : Nat) :
    Prog Q A (Except Int (List Byte)) := do
  match ← rpc c (.clone v) with
  | .error e => pure (.error e)
  | .ok => do
    match ← rpc c (.opens v) with
    | .error e => do
      let _ ← rpc c .clunk
      pure (.error e)
    | .ok => do
      if n = 0 then do
        let _ ← rpc c .clunk
        pure (.ok [])
      else do
        let k := min n (F.room c)
        match ← rpc c (.read v off k) with
        | .error e => do
          let _ ← rpc c .clunk
          pure (.error e)
        | .data b => do
          store (b.take k)
          -- the routine sleeps once more with the data in its buffer
          let _ ← rpc c .clunk
          pure (.ok (b.take k))
        | _ => do
          let _ ← rpc c .clunk
          pure (.error eio)
    | _ => do
      let _ ← rpc c .clunk
      pure (.error eio)
  | _ => pure (.error eio)

/-! ## Channels are not shared while they are in use -/

section Kept

variable {ι Q α ℓ : Type} {A : Q → Type} (rpcOf : Q → Option (C × Req V))

/-- The reply in the buffer of the channel the routine has is the reply to its request. -/
def Replied (s : Chans V C) (t : Task ι Q A α (Phase C) ℓ) : Prop :=
  ∀ q k c req, t.prog = .ask q k → rpcOf q = some (c, req) → t.phase = .answered c →
    s.rb c = F.server c req

/-- No two routines have the same channel, the channels they have are busy, and replies are to
their requests. -/
structure Kept (s : Chans V C) (l : List (Task ι Q A α (Phase C) ℓ)) : Prop where
  apart : (l.filterMap fun t => t.phase.chan).Nodup
  taken : ∀ t ∈ l, ∀ c, t.phase.chan = some c → s.busy c = true
  reply : ∀ t ∈ l, Replied F rpcOf s t

variable {F rpcOf} {s s' : Chans V C} {t : Task ι Q A α (Phase C) ℓ}
  {a b l : List (Task ι Q A α (Phase C) ℓ)}

theorem Kept.perm {l' : List (Task ι Q A α (Phase C) ℓ)} (h : Kept F rpcOf s l)
    (hp : l.Perm l') : Kept F rpcOf s l' where
  apart := (hp.filterMap _).nodup_iff.1 h.apart
  taken u hu := h.taken u (hp.mem_iff.2 hu)
  reply u hu := h.reply u (hp.mem_iff.2 hu)

theorem kept_middle : Kept F rpcOf s (a ++ t :: b) ↔ Kept F rpcOf s (t :: (a ++ b)) :=
  ⟨fun h => h.perm perm_middle, fun h => h.perm perm_middle.symm⟩

theorem kept_nil (s : Chans V C) : Kept F rpcOf s ([] : List (Task ι Q A α (Phase C) ℓ)) :=
  ⟨nodup_nil, by simp, by simp⟩

/-- What a routine adds to the others. -/
theorem kept_cons : Kept F rpcOf s (t :: l) ↔ Kept F rpcOf s l ∧ Replied F rpcOf s t ∧
    ∀ c, t.phase.chan = some c → s.busy c = true ∧ ∀ u ∈ l, u.phase.chan ≠ some c := by
  constructor
  · intro h
    have hap := h.apart
    refine ⟨⟨?_, fun u hu => h.taken u (by simp [hu]), fun u hu => h.reply u (by simp [hu])⟩,
      h.reply t (by simp), fun c hc => ⟨h.taken t (by simp) c hc, fun u hu hu' => ?_⟩⟩
    · rw [filterMap_cons] at hap
      split at hap
      · exact hap
      · exact (nodup_cons.1 hap).2
    · rw [filterMap_cons, hc] at hap
      exact (nodup_cons.1 hap).1 (mem_filterMap.2 ⟨u, hu, hu'⟩)
  · rintro ⟨hl, hr, hc⟩
    refine ⟨?_, ?_, ?_⟩
    · rw [filterMap_cons]
      split
      · exact hl.apart
      · rename_i c hch
        refine nodup_cons.2 ⟨fun hmem => ?_, hl.apart⟩
        obtain ⟨u, hu, hu'⟩ := mem_filterMap.1 hmem
        exact (hc c hch).2 u hu hu'
    · exact forall_mem_cons.2 ⟨fun c hch => (hc c hch).1, hl.taken⟩
    · exact forall_mem_cons.2 ⟨hr, hl.reply⟩

theorem kept_cons_idle (hp : t.phase = .idle) : Kept F rpcOf s (t :: l) ↔ Kept F rpcOf s l := by
  rw [kept_cons]
  refine ⟨fun h => h.1, fun h => ⟨h, fun q k c req _ _ hph => ?_, fun c hc => ?_⟩⟩
  · rw [hp] at hph
    cases hph
  · rw [hp] at hc
    cases hc

/-- What happens to a channel that none of the routines has does not concern them. -/
theorem Kept.frame (h : Kept F rpcOf s l) {c : C} (hc : ∀ u ∈ l, u.phase.chan ≠ some c)
    (hbusy : ∀ d, d ≠ c → s'.busy d = s.busy d) (hrb : ∀ d, d ≠ c → s'.rb d = s.rb d) :
    Kept F rpcOf s' l where
  apart := h.apart
  taken u hu d hd := by
    rw [hbusy d fun e => hc u hu (e ▸ hd)]
    exact h.taken u hu d hd
  reply u hu q k d req hprog hq hph := by
    have hd : u.phase.chan = some d := by
      rw [hph]
      rfl
    rw [hrb d fun e => hc u hu (e ▸ hd)]
    exact h.reply u hu q k d req hprog hq hph

/-- **A reply is the server's reply to the routine's own request.** -/
theorem Kept.own_reply {i : ι} {q : Q} {c : C} {req : Req V} {k : A q → Prog Q A α} {v : ℓ}
    (h : Kept F rpcOf s (⟨i, .ask q k, .answered c, v⟩ :: l)) (hq : rpcOf q = some (c, req)) :
    s.rb c = F.server c req :=
  (kept_cons.1 h).2.1 q k c req rfl hq rfl

variable [DecidableEq C]

/-- **The steps of `rpc`** keep the channels apart. -/
theorem Kept.rpc {i : ι} {q : Q} {k : A q → Prog Q A α} {p p' : Phase C} {v : ℓ}
    {c : C} {req : Req V} (h : Kept F rpcOf s (⟨i, .ask q k, p, v⟩ :: l))
    (hq : ∀ r, rpcOf q = some (c, r) → r = req) (hw : RpcWork F c req p s p' s') :
    Kept F rpcOf s' (⟨i, .ask q k, p', v⟩ :: l) := by
  rw [kept_cons] at h ⊢
  obtain ⟨hl, -, hch⟩ := h
  cases hw with
  | take _ hfree =>
    -- a channel that is free belongs to nobody
    have hnone : ∀ u ∈ l, u.phase.chan ≠ some c := by
      intro u hu hc
      have := hl.taken u hu c hc
      rw [hfree] at this
      cases this
    refine ⟨hl.frame hnone (fun d hd => ?_) fun _ _ => rfl, ?_, ?_⟩
    · exact update_of_ne hd _ _
    · intro q' k' d r _ _ hph
      cases hph
    · intro d hd
      cases hd
      exact ⟨update_self .., hnone⟩
  | reply =>
    obtain ⟨hbusy, hnone⟩ := hch c rfl
    refine ⟨hl.frame hnone (fun _ _ => rfl) fun d hd => ?_, ?_, ?_⟩
    · exact update_of_ne hd _ _
    · intro q' k' d r hprog hq' hph
      cases hph
      cases hprog
      rw [hq r hq']
      exact update_self ..
    · intro d hd
      cases hd
      exact ⟨hbusy, hnone⟩

theorem Kept.release {c : C} (h : Kept F rpcOf s (t :: l)) (hp : t.phase = .answered c) :
    Kept F rpcOf (chanDone c s) l := by
  rw [kept_cons] at h
  obtain ⟨hl, -, hch⟩ := h
  have hnone := (hch c (by rw [hp]; rfl)).2
  exact hl.frame hnone (fun d hd => update_of_ne hd _ _) fun _ _ => rfl

end Kept

end Tortoise.Vfs
