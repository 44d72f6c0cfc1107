import Mathlib.Data.Set.Insert

/-!
# The credentials of a process

`src/os/kernel/cred.c`: the calls that change the user and group ids of a process.

* `setId_subset`, `setReId_subset`: a call without privilege takes every id it sets from the three
  ids that were there;
* `Cred.run_within`: so no sequence of calls adds an id, as long as user id `0` is not among them;
* `credentials_never_grow`: the three parts together.
-/

namespace Tortoise.Creds

abbrev Id := BitVec 32

def noChange : Id := 0xFFFFFFFF

inductive Errno where
  | eperm
  | einval
  | efault
  deriving DecidableEq

/-- A real, an effective and a saved id: `uid`, `euid`, `suid`, or the same for groups. -/
structure Ids where
  real : Id
  eff : Id
  saved : Id
  deriving DecidableEq

/-- The credentials in `Proc`. -/
structure Cred where
  user : Ids
  group : Ids
  groups : List Id
  deriving DecidableEq

/-- `sys_setuid` and `sys_setgid`, for a process with or without privilege. -/
def setId (priv : Bool) (id : Id) (x : Ids) : Ids × Option Errno :=
  if priv then (⟨id, id, id⟩, none)
  else if id ≠ x.real ∧ id ≠ x.saved then (x, some .eperm)
  else ({ x with eff := id }, none)

/-- `sys_setreuid` and `sys_setregid`. -/
def setReId (priv : Bool) (r e : Id) (x : Ids) : Ids × Option Errno :=
  if !priv && (r != noChange && r != x.real && r != x.eff) then (x, some .eperm)
  else if !priv && (e != noChange && e != x.real && e != x.eff && e != x.saved) then
    (x, some .eperm)
  else
    let real := if r ≠ noChange then r else x.real
    let eff := if e ≠ noChange then e else x.eff
    let saved := if r ≠ noChange ∨ (e ≠ noChange ∧ e ≠ x.real) then eff else x.saved
    (⟨real, eff, saved⟩, none)

namespace Cred

variable (c : Cred)

/-- `curproc->euid == 0`. -/
def priv : Bool := c.user.eff = 0

def onUser (f : Ids → Ids × Option Errno) : Cred × Option Errno :=
  ({ c with user := (f c.user).1 }, (f c.user).2)

def onGroup (f : Ids → Ids × Option Errno) : Cred × Option Errno :=
  ({ c with group := (f c.group).1 }, (f c.group).2)

def sysSetuid (uid : Id) : Cred × Option Errno := c.onUser (setId c.priv uid)

def sysSetgid (gid : Id) : Cred × Option Errno := c.onGroup (setId c.priv gid)

def sysSetreuid (r e : Id) : Cred × Option Errno := c.onUser (setReId c.priv r e)

def sysSetregid (r e : Id) : Cred × Option Errno := c.onGroup (setReId c.priv r e)

/-- `sys_setgroups`, with the list that `copyin` gets from the process, if it gets one. -/
def sysSetgroups (n : Int) (list : Option (List Id)) : Cred × Option Errno :=
  if !c.priv then (c, some .eperm)
  else if n < 0 ∨ 16 < n then (c, some .einval)
  else match list with
    | some l => ({ c with groups := l.take n.toNat }, none)
    | none => if n = 0 then ({ c with groups := [] }, none) else (c, some .efault)

end Cred

inductive Call where
  | setuid (uid : Id)
  | setgid (gid : Id)
  | setreuid (r e : Id)
  | setregid (r e : Id)
  | setgroups (n : Int) (list : Option (List Id))

def Cred.call (c : Cred) : Call → Cred × Option Errno
  | .setuid u => c.sysSetuid u
  | .setgid g => c.sysSetgid g
  | .setreuid r e => c.sysSetreuid r e
  | .setregid r e => c.sysSetregid r e
  | .setgroups n list => c.sysSetgroups n list

/-- Calls one after the other, whatever they return. -/
def Cred.run (c : Cred) (calls : List Call) : Cred := calls.foldl (fun c k => (c.call k).1) c

/-- The ids of a process. -/
def Ids.set (x : Ids) : Set Id := {x.real, x.eff, x.saved}

/-! ## One call -/

theorem mem_set {x : Ids} {i : Id} : i ∈ x.set ↔ i = x.real ∨ i = x.eff ∨ i = x.saved := by
  simp [Ids.set]

theorem set_subset {x y : Ids} :
    y.set ⊆ x.set ↔ y.real ∈ x.set ∧ y.eff ∈ x.set ∧ y.saved ∈ x.set := by
  simp [Ids.set, Set.insert_subset_iff]

theorem setId_subset {priv : Bool} (h : priv = false) (id : Id) (x : Ids) :
    (setId priv id x).1.set ⊆ x.set := by
  subst h
  unfold setId
  rw [if_neg Bool.false_ne_true]
  split
  · exact subset_rfl
  · rename_i h
    rw [not_and_or, not_not, not_not] at h
    refine set_subset.2 ⟨mem_set.2 (.inl rfl), mem_set.2 ?_, mem_set.2 (.inr (.inr rfl))⟩
    exact h.elim .inl fun h => .inr (.inr h)

theorem setReId_subset {priv : Bool} (h : priv = false) (r e : Id) (x : Ids) :
    (setReId priv r e x).1.set ⊆ x.set := by
  subst h
  unfold setReId
  split
  · exact subset_rfl
  · rename_i hr
    split
    · exact subset_rfl
    · rename_i he
      -- what the two tests leave for the new real and effective id
      have hreal : (if r ≠ noChange then r else x.real) ∈ x.set := by
        rw [mem_set]
        grind
      have heff : (if e ≠ noChange then e else x.eff) ∈ x.set := by
        rw [mem_set]
        grind
      refine set_subset.2 ⟨hreal, heff, ?_⟩
      simp only
      split
      · exact heff
      · exact mem_set.2 (.inr (.inr rfl))

theorem setId_error {priv : Bool} {id : Id} {x : Ids} (h : (setId priv id x).2 ≠ none) :
    (setId priv id x).1 = x := by
  unfold setId at h ⊢
  grind

theorem setReId_error {priv : Bool} {r e : Id} {x : Ids} (h : (setReId priv r e x).2 ≠ none) :
    (setReId priv r e x).1 = x := by
  unfold setReId at h ⊢
  grind

/-- **A call that fails changes nothing.** -/
theorem call_error {c : Cred} {k : Call} (h : (c.call k).2 ≠ none) : (c.call k).1 = c := by
  cases k with
  | setuid u => exact congrArg (fun x => { c with user := x }) (setId_error h)
  | setgid g => exact congrArg (fun x => { c with group := x }) (setId_error h)
  | setreuid r e => exact congrArg (fun x => { c with user := x }) (setReId_error h)
  | setregid r e => exact congrArg (fun x => { c with group := x }) (setReId_error h)
  | setgroups n list =>
    unfold Cred.call Cred.sysSetgroups at h ⊢
    grind

/-! ## Sequences of calls -/

/-- The ids of `d` are among those of `c`, and its groups are those of `c`. -/
structure Cred.Within (c d : Cred) : Prop where
  user : d.user.set ⊆ c.user.set
  group : d.group.set ⊆ c.group.set
  groups : d.groups = c.groups

theorem Cred.Within.refl (c : Cred) : c.Within c := ⟨subset_rfl, subset_rfl, rfl⟩

theorem Cred.Within.trans {c d e : Cred} (h : c.Within d) (h' : d.Within e) : c.Within e :=
  ⟨h'.user.trans h.user, h'.group.trans h.group, h'.groups.trans h.groups⟩

theorem call_within {c : Cred} (h0 : 0 ∉ c.user.set) (k : Call) : c.Within (c.call k).1 := by
  have hp : c.priv = false := decide_eq_false fun h => h0 (mem_set.2 (.inr (.inl h.symm)))
  cases k with
  | setuid u => exact ⟨setId_subset hp u c.user, subset_rfl, rfl⟩
  | setgid g => exact ⟨subset_rfl, setId_subset hp g c.group, rfl⟩
  | setreuid r e => exact ⟨setReId_subset hp r e c.user, subset_rfl, rfl⟩
  | setregid r e => exact ⟨subset_rfl, setReId_subset hp r e c.group, rfl⟩
  | setgroups n list =>
    have hfail : c.sysSetgroups n list = (c, some .eperm) := by simp [Cred.sysSetgroups, hp]
    rw [Cred.call, hfail]
    exact .refl c

/-- Without user id `0` nothing is ever added, so `0` stays away. -/
theorem Cred.run_within (calls : List Call) {c : Cred} (h0 : 0 ∉ c.user.set) :
    c.Within (c.run calls) := by
  induction calls generalizing c with
  | nil => exact .refl c
  | cons k calls ih =>
    have hk := call_within h0 k
    exact hk.trans (ih fun h => h0 (hk.user h))

/-- **Credentials never grow.**  Sequences of calls by a process without user id `0` stay within
its user and group ids and leave its supplementary groups alone; a call that fails changes nothing;
and after `setuid` by a process with effective id `0` there is no way back to another id. -/
theorem credentials_never_grow (c : Cred) :
    (0 ∉ c.user.set → ∀ calls, (c.run calls).user.set ⊆ c.user.set ∧
      (c.run calls).group.set ⊆ c.group.set ∧ (c.run calls).groups = c.groups) ∧
    (∀ k, (c.call k).2 ≠ none → (c.call k).1 = c) ∧
    ∀ u, u ≠ 0 → c.user.eff = 0 → ∀ calls, ((c.call (.setuid u)).1.run calls).user.set = {u} := by
  refine ⟨fun h0 calls => ?_, fun k => call_error, fun u hu he calls => ?_⟩
  · have h := Cred.run_within calls h0
    exact ⟨h.user, h.group, h.groups⟩
  · have hset : (c.call (.setuid u)).1.user.set = {u} := by
      simp [Cred.call, Cred.sysSetuid, Cred.onUser, setId, Cred.priv, he, Ids.set]
    have h0 : 0 ∉ (c.call (.setuid u)).1.user.set := by
      rw [hset]
      exact fun h => hu h.symm
    have hsub := hset ▸ (Cred.run_within calls h0).user
    exact (Set.subset_singleton_iff_eq.1 hsub).resolve_left
      (Set.Nonempty.ne_empty ⟨_, mem_set.2 (.inl rfl)⟩)

/-- A process of user `100` that drops its saved id and asks for id `0`. -/
theorem credentials_never_grow_drop :
    (0 : Id) ∉ (⟨⟨100, 100, 7⟩, ⟨5, 5, 5⟩, [5]⟩ : Cred).user.set ∧
    ((⟨⟨100, 100, 7⟩, ⟨5, 5, 5⟩, [5]⟩ : Cred).run
      [.setreuid 100 noChange, .setuid 0, .setuid 7]).user.set ⊆ {100, 100, 7} := by
  have h0 : (0 : Id) ∉ (⟨⟨100, 100, 7⟩, ⟨5, 5, 5⟩, [5]⟩ : Cred).user.set := by
    rw [mem_set]
    decide
  exact ⟨h0, ((credentials_never_grow _).1 h0 _).1⟩

end Tortoise.Creds
