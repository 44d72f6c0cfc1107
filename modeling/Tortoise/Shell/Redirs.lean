import Mathlib.Data.Fintype.Basic
import Mathlib.Data.Finset.Card
import Mathlib.Data.List.FinRange

/-!
# Redirections of commands that run in the shell

`apply_redirs` and `restore` of `src/os/bin/sh.c` and `src/os/bin/rc.c`, over the descriptors of
the process (`src/os/kernel/file.c`).  The word of a redirection is expanded and its file opened
outside the model: `Redir.file` says which open file that gives, or that it fails.

* `save_redirect`: taking back one saved descriptor undoes one redirection, failed or not;
* `redirs_undone`: a command that leaves the descriptors alone leaves them alone with its
  redirections, if every one of these is saved (`Saves`): it finds a place in the save area, and a
  descriptor for its copy if it is of an open one.  For different descriptors this is exact;
* `copy_fails`: a copy that finds none is taken for a descriptor that was closed.
-/

namespace Tortoise.Redirs

open Function

variable {F : Type}

abbrev nofile : Nat := 32

/-- `SAVEMAX` of sh, and the size of the array `save` of rc. -/
def saveMax : Nat := 16

/-- `curproc->files`: the open file behind each descriptor. -/
abbrev Table (F : Type) := Fin nofile → Option F

def getf (t : Table F) (fd : Nat) : Option F := if h : fd < nofile then t ⟨fd, h⟩ else none

def fdAllocFrom (t : Table F) (low : Nat) : Option (Fin nofile) :=
  (List.finRange nofile).find? fun i => low ≤ i.val ∧ (t i).isNone

/-- `sys_dup` and `F_DUPFD`, unless the call fails. -/
def dupFrom (t : Table F) (low : Nat) (fd : Fin nofile) : Option (Fin nofile × Table F) :=
  match t fd, fdAllocFrom t low with
  | some f, some c => some (c, update t c (some f))
  | _, _ => none

/-- `sys_dup2`; a call that fails changes nothing. -/
def dup2 (t : Table F) (a : Nat) (b : Fin nofile) : Table F :=
  match getf t a with
  | some f => update t b (some f)
  | none => t

def close (t : Table F) (fd : Fin nofile) : Table F := update t fd none

/-- A redirection of descriptor `fd`: a copy of another one, a close, or a file. -/
inductive Redir (F : Type) where
  | dup (fd : Fin nofile) (fd2 : Nat)
  | close (fd : Fin nofile)
  | file (fd : Fin nofile) (opened : Option F)

def Redir.fd : Redir F → Fin nofile
  | .dup fd _ | .close fd | .file fd _ => fd

/-- One redirection without its save, and whether it succeeds. -/
def redirect (t : Table F) : Redir F → Bool × Table F
  | .dup fd fd2 => ((getf t fd2).isSome, dup2 t fd2 fd)
  | .close fd => (true, close t fd)
  | .file _ none => (false, t)
  | .file fd (some f) =>
    match fdAllocFrom t 0 with
    | none => (false, t)
    | some k =>
      let u := update t k (some f)
      (true, if k = fd then u else close (dup2 u k fd) k)

/-- Where the shells differ: the first descriptor tried for a copy, and whether a save that does
not fit is left out. -/
structure Shell where
  low : Nat
  bounded : Bool

def sh : Shell := ⟨20, true⟩

def rc : Shell := ⟨0, false⟩

/-- A saved descriptor with its copy, if one could be made. -/
abbrev Saved := Fin nofile × Option (Fin nofile)

/-- The save of `apply_redirs`, the newest first.  `none` is the store of rc behind its array. -/
def save (σ : Shell) (sv : List Saved) (t : Table F) (fd : Fin nofile) :
    Option (List Saved × Table F) :=
  if sv.length < saveMax then
    match dupFrom t σ.low fd with
    | some (c, u) => some ((fd, some c) :: sv, u)
    | none => some ((fd, none) :: sv, t)
  else if σ.bounded then some (sv, t) else none

/-- `apply_redirs`: whether all went well, what is saved, and the table. -/
def applyRedirs (σ : Shell) : List (Redir F) → List Saved → Table F →
    Option (Bool × List Saved × Table F)
  | [], sv, t => some (true, sv, t)
  | r :: rs, sv, t =>
    match save σ sv t r.fd with
    | none => none
    | some (sv, t) =>
      match redirect t r with
      | (true, u) => applyRedirs σ rs sv u
      | (false, u) => some (false, sv, u)

/-- One turn of the loop of `restore`. -/
def undo (t : Table F) : Saved → Table F
  | (fd, some c) => close (dup2 t c fd) c
  | (fd, none) => close t fd

def restore (sv : List Saved) (t : Table F) : Table F := sv.foldl undo t

/-- A built-in, function or compound command with redirections; `command` is what it does to the
descriptors. -/
def around (σ : Shell) (rs : List (Redir F)) (command : Table F → Table F) (t : Table F) :
    Option (Table F) :=
  (applyRedirs σ rs [] t).map fun r => restore r.2.1 (if r.1 then command r.2.2 else r.2.2)

/-- The save of a redirection keeps what it is to keep: an open descriptor finds a free one for its
copy.  Without a place in the save area the redirection must change nothing. -/
def Safe (σ : Shell) (sv : List Saved) (t : Table F) (r : Redir F) : Prop :=
  if sv.length < saveMax then t r.fd = none ∨ (fdAllocFrom t σ.low).isSome
  else σ.bounded = true ∧ (redirect t r).2 = t

/-- Every redirection that is carried out is saved. -/
def Saves (σ : Shell) : List (Redir F) → List Saved → Table F → Prop
  | [], _, _ => True
  | r :: rs, sv, t => Safe σ sv t r ∧ ∀ x ∈ save σ sv t r.fd,
      (redirect x.2 r).1 = true → Saves σ rs x.1 (redirect x.2 r).2

instance [DecidableEq F] (σ : Shell) (sv : List Saved) (t : Table F) (r : Redir F) :
    Decidable (Safe σ sv t r) := inferInstanceAs (Decidable (ite ..))

instance Saves.instDecidable [DecidableEq F] (σ : Shell) :
    ∀ (rs : List (Redir F)) (sv : List Saved) (t : Table F), Decidable (Saves σ rs sv t)
  | [], _, _ => inferInstanceAs (Decidable True)
  | r :: rs, sv, t =>
    have := fun sv t => Saves.instDecidable σ rs sv t
    inferInstanceAs (Decidable (Safe σ sv t r ∧ ∀ x ∈ save σ sv t r.fd,
      (redirect x.2 r).1 = true → Saves σ rs x.1 (redirect x.2 r).2))

section

variable {σ : Shell} {t u : Table F} {low : Nat} {f : F} {fd k c : Fin nofile}

theorem fdAllocFrom_some (h : fdAllocFrom t low = some c) : low ≤ c.val ∧ t c = none := by
  simpa using List.find?_some h

theorem dup2_some (h : t k = some f) (fd : Fin nofile) : dup2 t k fd = update t fd (some f) := by
  rw [dup2, getf, dif_pos k.isLt, h]

/-- A descriptor that was free is used in between. -/
theorem close_between (hk : t k = none) (hne : k ≠ fd) (x y : Option F) :
    close (update (update t k x) fd y) k = update t fd y := by
  rw [close, update_comm hne, update_idem]
  exact update_eq_self_iff.2 (by rw [update_of_ne hne, hk])

theorem redirect_update (t : Table F) (r : Redir F) :
    ∃ x, (redirect t r).2 = update t r.fd x := by
  have hself : ∀ fd, ∃ x, t = update t fd x := fun fd => ⟨_, (update_eq_self fd t).symm⟩
  match r with
  | .dup fd fd2 =>
    rw [redirect, dup2]
    split
    · exact ⟨_, rfl⟩
    · exact hself fd
  | .close fd => exact ⟨none, rfl⟩
  | .file fd none => exact hself fd
  | .file fd (some f) =>
    rw [redirect]
    split
    · exact hself fd
    · next k hk =>
      refine ⟨some f, ?_⟩
      dsimp only [Redir.fd]
      split_ifs with hkf
      · rw [hkf]
      · rw [dup2_some (update_self k _ t), close_between (fdAllocFrom_some hk).2 hkf]

/-- **Taking back one saved descriptor undoes its redirection.** -/
theorem save_redirect {sv : List Saved} (r : Redir F) (hsv : sv.length < saveMax)
    (h : t r.fd = none ∨ (fdAllocFrom t σ.low).isSome) :
    ∃ s u, save σ sv t r.fd = some (s :: sv, u) ∧ undo (redirect u r).2 s = t := by
  rw [save, if_pos hsv, dupFrom]
  cases hf : t r.fd with
  | some f =>
    obtain ⟨c, hc⟩ := Option.isSome_iff_exists.1 (h.resolve_left (by simp [hf]))
    have hfree := (fdAllocFrom_some hc).2
    have hne : c ≠ r.fd := fun h => by simp [← h, hfree] at hf
    obtain ⟨x, hx⟩ := redirect_update (update t c (some f)) r
    rw [hc]
    refine ⟨_, _, rfl, ?_⟩
    rw [hx, undo, dup2_some (by rw [update_of_ne hne, update_self]),
      update_idem, close_between hfree hne, ← hf, update_eq_self]
  | none =>
    obtain ⟨x, hx⟩ := redirect_update t r
    refine ⟨_, _, rfl, ?_⟩
    rw [hx, undo, close, update_idem, ← hf, update_eq_self]

/-- One redirection that is saved leaves what `restore` will give. -/
theorem save_restore {sv : List Saved} (r : Redir F) (h : Safe σ sv t r) :
    ∃ sv' u, save σ sv t r.fd = some (sv', u) ∧ restore sv' (redirect u r).2 = restore sv t := by
  unfold Safe at h
  split_ifs at h with hsv
  · obtain ⟨s, u, hs, hundo⟩ := save_redirect r hsv h
    exact ⟨_, u, hs, congrArg (restore sv) hundo⟩
  · exact ⟨sv, t, by rw [save, if_neg hsv, if_pos h.1], by rw [h.2]⟩

theorem applyRedirs_cons {sv sv₁ : List Saved} {r : Redir F} (rs : List (Redir F))
    (h : save σ sv t r.fd = some (sv₁, u)) : applyRedirs σ (r :: rs) sv t =
      if (redirect u r).1 then applyRedirs σ rs sv₁ (redirect u r).2
      else some (false, sv₁, (redirect u r).2) := by
  rw [applyRedirs, h]
  dsimp only
  split <;> simp_all

/-- What is saved takes every redirection back, wherever the list stops. -/
theorem applyRedirs_undone (rs : List (Redir F)) (sv : List Saved) (t : Table F)
    (h : Saves σ rs sv t) :
    ∃ ok sv' t', applyRedirs σ rs sv t = some (ok, sv', t') ∧ restore sv' t' = restore sv t := by
  induction rs generalizing sv t with
  | nil => exact ⟨true, sv, t, rfl, rfl⟩
  | cons r rs ih =>
    obtain ⟨sv₁, u, hs, hback⟩ := save_restore r h.1
    rw [applyRedirs_cons rs hs]
    split_ifs with hok
    · obtain ⟨ok, sv', t', ha, hrest⟩ := ih sv₁ _ (h.2 (sv₁, u) hs hok)
      exact ⟨ok, sv', t', ha, hrest.trans hback⟩
    · exact ⟨_, _, _, rfl, hback⟩

/-! ## A save that is missing -/

/-- Nothing that is saved has to do with the descriptor. -/
def Apart (sv : List Saved) (fd : Fin nofile) : Prop := ∀ s ∈ sv, s.1 ≠ fd ∧ s.2 ≠ some fd

theorem undo_apart {s : Saved} (h : s.1 ≠ fd ∧ s.2 ≠ some fd) (t : Table F) :
    undo t s fd = t fd := by
  obtain ⟨k, c⟩ := s
  have hk : fd ≠ k := h.1.symm
  cases c with
  | none => exact update_of_ne hk _ _
  | some c =>
    have hc : fd ≠ c := fun hc => h.2 (congrArg some hc.symm)
    rw [undo, close, update_of_ne hc, dup2]
    cases getf t c with
    | none => rfl
    | some f => exact update_of_ne hk _ _

theorem restore_apart {sv : List Saved} (h : Apart sv fd) (t : Table F) :
    restore sv t fd = t fd := by
  induction sv generalizing t with
  | nil => rfl
  | cons s sv ih =>
    obtain ⟨hs, hsv⟩ := List.forall_mem_cons.1 h
    exact (ih hsv _).trans (undo_apart hs t)

/-- What a save adds. -/
theorem save_cases {sv sv₁ : List Saved} (h : save σ sv t fd = some (sv₁, u)) :
    sv₁ = sv ∨ sv₁ = (fd, none) :: sv ∨
      ∃ c, σ.low ≤ c.val ∧ t c = none ∧ sv₁ = (fd, some c) :: sv := by
  rw [save, dupFrom] at h
  split_ifs at h
  · split at h
    · next c u hc =>
      split at hc
      · next hf ha =>
        cases hc
        cases h
        exact .inr (.inr ⟨c, (fdAllocFrom_some ha).1, (fdAllocFrom_some ha).2, rfl⟩)
      · cases hc
    · cases h
      exact .inr (.inl rfl)
  · cases h
    exact .inl rfl

/-- What is saved stays. -/
theorem applyRedirs_suffix (rs : List (Redir F)) {sv sv' : List Saved} {t u : Table F} {ok : Bool}
    (h : applyRedirs σ rs sv t = some (ok, sv', u)) : sv <:+ sv' := by
  induction rs generalizing sv t with
  | nil =>
    cases h
    exact List.suffix_rfl
  | cons r rs ih =>
    cases hs : save σ sv t r.fd with
    | none => simp [applyRedirs, hs] at h
    | some x =>
      have hsuf : sv <:+ x.1 := by
        obtain hx | hx | ⟨c, -, -, hx⟩ := save_cases hs <;> rw [hx]
        · exact List.suffix_cons _ _
        · exact List.suffix_cons _ _
      rw [applyRedirs_cons rs hs] at h
      split_ifs at h
      · exact hsuf.trans (ih h)
      · cases h
        exact hsuf

/-- With a full save area nothing is saved, and only the descriptors of the list change. -/
theorem applyRedirs_full (rs : List (Redir F)) {sv sv' : List Saved} {t u : Table F} {ok : Bool}
    (hb : σ.bounded = true) (hfull : ¬ sv.length < saveMax) (hfd : ∀ r ∈ rs, r.fd ≠ fd)
    (h : applyRedirs σ rs sv t = some (ok, sv', u)) : sv' = sv ∧ u fd = t fd := by
  induction rs generalizing t with
  | nil =>
    cases h
    exact ⟨rfl, rfl⟩
  | cons r rs ih =>
    obtain ⟨hne, hfd⟩ := List.forall_mem_cons.1 hfd
    obtain ⟨x, hx⟩ := redirect_update t r
    have hkeep : (redirect t r).2 fd = t fd := by rw [hx, update_of_ne hne.symm]
    rw [applyRedirs_cons rs (u := t) (by rw [save, if_neg hfull, if_pos hb])] at h
    split_ifs at h
    · obtain ⟨h1, h2⟩ := ih hfd h
      exact ⟨h1, h2.trans hkeep⟩
    · cases h
      exact ⟨rfl, hkeep⟩

/-- The descriptors that are redirected are different, and none of them can be taken for a copy:
each is open before the command, or below the first one that is tried. -/
def Plain (σ : Shell) (rs : List (Redir F)) (t : Table F) : Prop :=
  (rs.map Redir.fd).Nodup ∧ ∀ r ∈ rs, t r.fd ≠ none ∨ r.fd.val < σ.low

/-- **A save that is missing shows**: a descriptor that is not saved is lost, if nothing else that
is saved has to do with it. -/
theorem restore_unsafe {r : Redir F} {rs : List (Redir F)} {sv sv' : List Saved} {ok : Bool}
    (hr : ¬ Safe σ sv t r) (hap : Apart sv r.fd) (hrs : ∀ r' ∈ rs, r'.fd ≠ r.fd)
    (h : applyRedirs σ (r :: rs) sv t = some (ok, sv', u)) :
    restore sv' u r.fd ≠ t r.fd := by
  unfold Safe at hr
  split_ifs at hr with hsv
  · -- the copy of an open descriptor has failed, and `restore` closes it
    obtain ⟨hf, ha⟩ := not_or.1 hr
    have ha : fdAllocFrom t σ.low = none := by simpa using ha
    have hs : save σ sv t r.fd = some ((r.fd, none) :: sv, t) := by
      rw [save, if_pos hsv, dupFrom, ha]
      cases t r.fd <;> rfl
    have hsuf : (r.fd, none) :: sv <:+ sv' := by
      rw [applyRedirs_cons rs hs] at h
      split_ifs at h
      · exact applyRedirs_suffix rs h
      · cases h
        exact List.suffix_rfl
    obtain ⟨newer, rfl⟩ := hsuf
    rw [restore, List.foldl_append, List.foldl_cons]
    refine fun heq => hf (heq.symm.trans ((restore_apart hap _).trans ?_))
    exact update_self _ _ _
  · -- the save area is full, and the change stays
    cases hb : σ.bounded with
    | false => simp [applyRedirs, save, hsv, hb] at h
    | true =>
      obtain ⟨x, hx⟩ := redirect_update t r
      have hne : (redirect t r).2 r.fd ≠ t r.fd := by
        intro heq
        rw [hx, update_self] at heq
        exact hr ⟨hb, by rw [hx, heq, update_eq_self]⟩
      rw [applyRedirs_cons rs (u := t) (by rw [save, if_neg hsv, if_pos hb])] at h
      split_ifs at h
      · obtain ⟨rfl, hu⟩ := applyRedirs_full rs hb hsv hrs h
        rwa [restore_apart hap, hu]
      · cases h
        rwa [restore_apart hap]

theorem saves_of_undone {t₀ : Table F} (rs : List (Redir F)) (sv : List Saved) (t : Table F)
    {ok : Bool} {sv' : List Saved} (hplain : Plain σ rs t₀) (hback : restore sv t = t₀)
    (hap : ∀ r ∈ rs, Apart sv r.fd) (h : applyRedirs σ rs sv t = some (ok, sv', u))
    (hundo : restore sv' u = t₀) : Saves σ rs sv t := by
  induction rs generalizing sv t with
  | nil => trivial
  | cons r rs ih =>
    obtain ⟨hnodup, hopen⟩ := hplain
    obtain ⟨hr, hnodup⟩ := List.nodup_cons.1 hnodup
    obtain ⟨-, hopen⟩ := List.forall_mem_cons.1 hopen
    obtain ⟨hapr, hap⟩ := List.forall_mem_cons.1 hap
    have hsafe : Safe σ sv t r := by
      by_contra hsafe
      refine restore_unsafe hsafe hapr (fun r' hr' he => hr ?_) h ?_
      · exact List.mem_map.2 ⟨r', hr', he⟩
      · rw [hundo, ← hback, restore_apart hapr]
    refine ⟨hsafe, fun x hs hok => ?_⟩
    obtain ⟨sv₁, u₁⟩ := x
    obtain ⟨sv₂, u₂, hs', hback'⟩ := save_restore r hsafe
    cases hs.symm.trans hs'
    rw [applyRedirs_cons rs hs, if_pos hok] at h
    refine ih sv₁ _ ⟨hnodup, hopen⟩ (hback'.trans hback) (fun r' hr' => ?_) h
    have hfd : r.fd ≠ r'.fd := fun he => hr (List.mem_map.2 ⟨r', hr', he.symm⟩)
    obtain hx | hx | ⟨c, hlow, hfree, hx⟩ := save_cases hs <;> rw [hx]
    · exact hap r' hr'
    · exact List.forall_mem_cons.2 ⟨⟨hfd, nofun⟩, hap r' hr'⟩
    · refine List.forall_mem_cons.2 ⟨⟨hfd, fun hc => ?_⟩, hap r' hr'⟩
      -- a copy takes a free descriptor from the first that is tried on
      cases hc
      rw [← restore_apart (hap r' hr') t, hback] at hfree
      exact (hopen r' hr').elim (· hfree) (by omega)

end

/-- **Redirections are undone** if every one of them is saved; and if the descriptors are different
ones, exactly then.  The command leaves the table it is given as it is. -/
theorem redirs_undone (σ : Shell) (rs : List (Redir F)) (command : Table F → Table F)
    (t : Table F)
    (hcommand : ∀ sv u, applyRedirs σ rs [] t = some (true, sv, u) → command u = u) :
    (Saves σ rs [] t → around σ rs command t = some t) ∧
    (Plain σ rs t → (around σ rs command t = some t ↔ Saves σ rs [] t)) := by
  have haround : ∀ {ok sv u}, applyRedirs σ rs [] t = some (ok, sv, u) →
      around σ rs command t = some (restore sv u) := by
    intro ok sv u ha
    rw [around, ha, Option.map_some]
    cases ok with
    | true => exact congrArg (fun u => some (restore sv u)) (hcommand sv u ha)
    | false => rfl
  have hsuff : Saves σ rs [] t → around σ rs command t = some t := by
    intro h
    obtain ⟨ok, sv, u, ha, hr⟩ := applyRedirs_undone rs [] t h
    rw [haround ha, hr, restore, List.foldl_nil]
  refine ⟨hsuff, fun hplain => ⟨fun h => ?_, hsuff⟩⟩
  cases ha : applyRedirs σ rs [] t with
  | none => simp [around, ha] at h
  | some x =>
    rw [haround ha] at h
    exact saves_of_undone rs [] t hplain rfl (fun _ _ => nofun) ha (Option.some.inj h)

/-- Descriptors 0, 1 and 2 are open. -/
def standard : Table Nat := fun i => if i.val < 3 then some i.val else none

/-- Fifteen redirections: descriptors 1 and 0 are closed, and 3 to 15 become copies of 2. -/
def fifteen : List (Redir Nat) :=
  .close 1 :: .close 0 :: (List.range 13).map fun i => .dup (Fin.ofNat nofile (i + 3)) 2

theorem redirs_undone_fifteen : around sh fifteen id standard = some standard :=
  ((redirs_undone sh fifteen id standard fun _ _ _ => rfl).2 ⟨by decide, by decide⟩).2 (by decide)

/-- After twelve times `0<&0` there is no descriptor from 20 up for a copy: `>&-` in sh leaves
descriptor 1 closed. -/
theorem copy_fails :
    (around sh (List.replicate 12 (.dup 0 0) ++ [.close 1]) id standard).map (· 1) = some none := by
  decide

end Tortoise.Redirs
