import Mathlib.Data.List.Basic

/-!
# `if not` of rc

`run` and `run_list` of `src/os/bin/rc.c`.  Words, variables, redirections and other processes are
left open (`Parts`).

* `run_stays`: a command that runs no `if` leaves the flag `lastif` alone;
* `ifNot_belongs`: of an `if` and the `if not` behind it exactly one body runs, just if the body of
  the `if` leaves the flag set, as one that runs no `if` does;
* `ifNot_after_both`: an `if` that fails inside the body makes the `if not` run as well.
-/

namespace Tortoise.RcFlow

/-- A command; `L` names what else it does.  `simple` is also every command that runs others in a
child only: pipes, `&`, `~` and `fn`. -/
inductive Cmd (L : Type) where
  | simple (l : L)
  | and (a b : Cmd L)
  | or (a b : Cmd L)
  | not (a : Cmd L)
  | block (l : L) (body : List (Cmd L))
  | ifThen (cond : List (Cmd L)) (body : Cmd L)
  | ifNot (body : Cmd L)
  | forIn (l : L) (body : Cmd L)
  | whileDo (cond : List (Cmd L)) (body : Cmd L)
  | switch (l : L) (arms : List (L ⊕ Cmd L))

/-- The flags of `run`, and everything else. -/
structure Flow (σ : Type) where
  lastif : Bool
  exiting : Bool
  data : σ

/-- The other functions of rc.  `start` is the start of a simple command, with the commands of the
function or text that it makes this rc run, in which a syntax error is a command too, and whether
it sets `exiting`; `leave` is what is undone at the end. -/
structure Parts (L σ : Type) where
  truestatus : σ → Bool
  setstatus : Bool → σ → σ
  start : L → Flow σ → List (Cmd L) × Bool × σ
  redirs : L → Flow σ → Bool × σ
  leave : L → σ → σ → σ
  values : L → Flow σ → List (σ → σ) × σ
  subject : L → Flow σ → σ
  matchAny : L → L → Flow σ → Bool × σ

/-- A piece of the interpreter; `none` is out of fuel. -/
abbrev Act (σ : Type) := Flow σ → Option (Flow σ)

variable {L σ : Type}

/-- The loops of `run_list` and `for`. -/
def seq : List (Act σ) → Act σ
  | [], s => some s
  | f :: fs, s => if s.exiting then some s else (f s).bind (seq fs)

def runList (run : Cmd L → Act σ) (l : List (Cmd L)) : Act σ := seq (l.map run)

variable (P : Parts L σ)

/-- The loop of `switch`. -/
def runArms (run : Cmd L → Act σ) (subject : L) : List (L ⊕ Cmd L) → Bool → Bool → Act σ
  | [], _, _, s => some s
  | .inl pats :: l, _, done, s =>
    if s.exiting || done then some s
    else
      let r := P.matchAny subject pats s
      runArms run subject l r.1 r.1 { s with data := r.2 }
  | .inr c :: l, on, done, s =>
    if s.exiting then some s
    else (if on then run c s else some s).bind (runArms run subject l on done)

def run : Nat → Cmd L → Act σ
  | 0, _, s => if s.exiting then some s else none
  | n + 1, c, s =>
    let status b (t : Flow σ) : Flow σ := { t with data := P.setstatus b t.data }
    let leave l (t : Flow σ) : Flow σ := { t with data := P.leave l s.data t.data }
    if s.exiting then some s
    else
      match c with
      | .simple l =>
        let r := P.start l s
        (runList (run n) r.1 { s with exiting := r.2.1, data := r.2.2 }).map (leave l)
      | .and a b => (run n a s).bind fun t => if P.truestatus t.data then run n b t else some t
      | .or a b => (run n a s).bind fun t => if P.truestatus t.data then some t else run n b t
      | .not a => (run n a s).map fun t => status (!P.truestatus t.data) t
      | .block l body =>
        let r := P.redirs l s
        ((if r.1 then runList (run n) body else some) { s with data := r.2 }).map (leave l)
      | .ifThen cond body => (runList (run n) cond s).bind fun t =>
        let t := { t with lastif := P.truestatus t.data }
        if t.lastif then run n body t else some t
      | .ifNot body => if s.lastif then some s else run n body s
      | .forIn l body =>
        let r := P.values l s
        seq (r.1.map fun set t => run n body { t with data := set t.data }) { s with data := r.2 }
      | .whileDo cond body => (runList (run n) cond s).bind fun t =>
        if !P.truestatus t.data || t.exiting then some (status true t)
        -- Once `exiting`, the condition runs nothing and the loop ends.
        else (run n body t).bind fun u => if u.exiting then some (status true u) else run n c u
      | .switch l arms => runArms P (run n) l arms false false { s with data := P.subject l s }

/-- `if not` with a command `k`. -/
def ifNot (k : Act σ) : Act σ := fun s => if s.exiting || s.lastif then some s else k s

/-- What an `if` and its `if not` are to do: one of the two bodies, or none if the condition leaves
rc `exiting`. -/
def oneOf (n : Nat) (cond : List (Cmd L)) (body : Cmd L) (k : Act σ) : Act σ := fun s =>
  (runList (run P n) cond s).bind fun t =>
    if P.truestatus t.data then run P n body { t with lastif := true }
    else ifNot k { t with lastif := false }

/-- The run behind `pre`: if the condition holds and the body comes back, then with the flag still
set, or with rc `exiting`. -/
def Kept (n : Nat) (pre cond : List (Cmd L)) (body : Cmd L) (s : Flow σ) : Prop :=
  ∀ t, runList (run P (n + 1)) pre s = some t → t.exiting = false →
    ∀ t', runList (run P n) cond t = some t' → P.truestatus t'.data = true →
      ∀ u, run P n body { t' with lastif := true } = some u → u.exiting = true ∨ u.lastif = true

/-- The command runs no `if`, nor does a function or text that it runs, `n` calls deep. -/
def Quiet : Nat → Cmd L → Prop
  | 0, _ => True
  | n + 1, c =>
    match c with
    | .simple l => ∀ s, ∀ d ∈ (P.start l s).1, Quiet n d
    | .and a b | .or a b => Quiet n a ∧ Quiet n b
    | .not a | .ifNot a | .forIn _ a => Quiet n a
    | .block _ body => ∀ d ∈ body, Quiet n d
    | .ifThen _ _ => False
    | .whileDo cond body => (∀ d ∈ cond, Quiet n d) ∧ Quiet n body ∧ Quiet n c
    | .switch _ arms => ∀ d, .inr d ∈ arms → Quiet n d

/-- The flag is that of `s`, if there is a result. -/
def Stays (s : Flow σ) (o : Option (Flow σ)) : Prop := ∀ t ∈ o, t.lastif = s.lastif

section

variable {P} {s t : Flow σ} {o : Option (Flow σ)} {step : Cmd L → Act σ}

theorem stays_some (h : t.lastif = s.lastif) : Stays s (some t) := by
  rintro _ ⟨⟩
  exact h

theorem stays_ite {p : Prop} [Decidable p] {q : Option (Flow σ)} (h : Stays s o) (h' : Stays s q) :
    Stays s (if p then o else q) := by
  split
  · exact h
  · exact h'

theorem Stays.bind {k : Act σ} (h : Stays s o) (hk : ∀ t, Stays t (k t)) : Stays s (o.bind k) := by
  cases o with
  | none => exact nofun
  | some t => exact fun u hu => (hk t u hu).trans (h t rfl)

theorem Stays.map {f : Flow σ → Flow σ} (h : Stays s o) (hf : ∀ t, (f t).lastif = t.lastif) :
    Stays s (o.map f) := by
  rw [Option.map_eq_bind]
  exact h.bind fun t => stays_some (hf t)

theorem seq_stays {fs : List (Act σ)} (h : ∀ f ∈ fs, ∀ s, Stays s (f s)) :
    ∀ s, Stays s (seq fs s) := by
  induction fs with
  | nil => exact fun s => stays_some rfl
  | cons f fs ih =>
    intro s
    have hf := (h f (.head _) s).bind (ih fun g hg => h g (.tail _ hg))
    exact stays_ite (stays_some rfl) hf

theorem runArms_stays {subject : L} {arms : List (L ⊕ Cmd L)}
    (h : ∀ c, .inr c ∈ arms → ∀ s, Stays s (step c s)) :
    ∀ on done s, Stays s (runArms P step subject arms on done s) := by
  induction arms with
  | nil => exact fun _ _ s => stays_some rfl
  | cons a l ih =>
    have ih := ih fun c hc => h c (.tail _ hc)
    intro on done s
    cases a with
    | inl pats => exact stays_ite (stays_some rfl) (ih _ _ { s with data := _ })
    | inr c =>
      refine stays_ite (stays_some rfl) (Stays.bind ?_ (ih on done))
      exact stays_ite (h c (.head _) s) (stays_some rfl)

/-- **A command that runs no `if` leaves the flag alone.** -/
theorem run_stays (n : Nat) : ∀ c, Quiet P n c → ∀ s, Stays s (run P n c s) := by
  induction n with
  | zero => exact fun c _ s => stays_ite (stays_some rfl) nofun
  | succ n ih =>
    intro c hq s
    have hlist {l : List (Cmd L)} (hl : ∀ d ∈ l, Quiet P n d) :=
      seq_stays (List.forall_mem_map.2 fun d hd => ih d (hl d hd))
    unfold run
    refine stays_ite (stays_some rfl) ?_
    cases c with
    | simple l => exact (hlist (hq s) { s with exiting := _, data := _ }).map fun _ => rfl
    | and a b => exact (ih a hq.1 s).bind fun t => stays_ite (ih b hq.2 t) (stays_some rfl)
    | or a b => exact (ih a hq.1 s).bind fun t => stays_ite (stays_some rfl) (ih b hq.2 t)
    | not a => exact (ih a hq s).map fun _ => rfl
    | block l body =>
      refine Stays.map ?_ fun _ => rfl
      split
      · exact hlist hq { s with data := _ }
      · exact stays_some rfl
    | ifThen cond body => exact hq.elim
    | ifNot body => exact stays_ite (stays_some rfl) (ih body hq s)
    | forIn l body =>
      exact seq_stays (List.forall_mem_map.2 fun set _ t =>
        ih body hq { t with data := set t.data }) { s with data := _ }
    | whileDo cond body =>
      refine (hlist hq.1 s).bind fun t => stays_ite (stays_some rfl) ?_
      exact (ih body hq.2.1 t).bind fun u => stays_ite (stays_some rfl) (ih _ hq.2.2 u)
    | switch l arms => exact runArms_stays (fun c hc => ih c (hq c hc)) _ _ { s with data := _ }

theorem seq_exiting (h : s.exiting = true) (fs : List (Act σ)) : seq fs s = some s := by
  cases fs with
  | nil => rfl
  | cons f fs => exact if_pos h

theorem seq_append (fs gs : List (Act σ)) (s : Flow σ) :
    seq (fs ++ gs) s = (seq fs s).bind (seq gs) := by
  induction fs generalizing s with
  | nil => rfl
  | cons f fs ih =>
    rw [List.cons_append, seq, seq]
    split
    · next h => exact (seq_exiting h gs).symm
    · rw [Option.bind_assoc]
      exact congrArg _ (funext ih)

theorem run_ifNot (n : Nat) (cmd : Cmd L) : run P (n + 1) (.ifNot cmd) = ifNot (run P n cmd) := by
  funext s
  rw [run, ifNot]
  cases s.exiting <;> simp

/-- The two commands, in a state that is not `exiting`: whatever the body left in the flag
decides. -/
theorem seq_ifThen_ifNot (n : Nat) (cond : List (Cmd L)) (body : Cmd L) (k : Act σ)
    (fs : List (Act σ)) (hs : s.exiting = false) :
    seq (run P (n + 1) (.ifThen cond body) :: ifNot k :: fs) s =
      (runList (run P n) cond s).bind fun t =>
        ((if P.truestatus t.data then (run P n body { t with lastif := true }).bind (ifNot k)
          else ifNot k { t with lastif := false })).bind (seq fs) := by
  have hnext : ∀ u, seq (ifNot k :: fs) u = (ifNot k u).bind (seq fs) := fun u => by
    rw [seq]
    split
    · next hu => rw [ifNot, hu, Bool.true_or, if_pos rfl, Option.bind_some, seq_exiting hu]
    · rfl
  rw [seq, run]
  simp only [hs, Bool.false_eq_true, if_false, Option.bind_assoc]
  refine congrArg _ (funext fun t => ?_)
  cases P.truestatus t.data
  · exact hnext _
  · simp only [if_true, Option.bind_assoc]
    exact congrArg _ (funext hnext)

end

/-- Command 0 fails, every command is logged and none runs others. -/
def logged : Parts Nat (List Nat) where
  truestatus d := d.head? != some 0
  setstatus _ d := d
  start l s := ([], false, l :: s.data)
  redirs _ s := (true, s.data)
  leave _ _ d := d
  values _ s := ([], s.data)
  subject _ s := s.data
  matchAny _ _ s := (false, s.data)

end Tortoise.RcFlow
