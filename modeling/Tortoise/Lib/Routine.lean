import Mathlib

/-!
# Properties of routines that sequencing preserves

A routine is a computation in `EStateM`: it returns or leaves early, in both
cases with a final state.  Three kinds of property are used to reason about
long routines from their parts.

* `Ends x P E s` says how `x` ends from `s`: with `P` when it returns, with `E`
  when it leaves early.
* `Follows R x`: the final state is related to the initial one by `R`, which is
  reflexive and transitive.
* `Commutes r I x`: on states that satisfy `I`, running `x` and applying the map
  `r` to the state can be exchanged, and `I` holds again at the end.

`Sequenced` is what the last two have in common: closure under `pure` and
`bind`.  A property of all routines built from some actions is proved once for
an arbitrary `Sequenced` predicate that holds of the actions.
-/

namespace Tortoise.Lib

variable {ε σ : Type} {α β : Type}

/-! ## Results -/

variable {x : EStateM ε σ α} {f : α → EStateM ε σ β}

/-- The state in which a routine ends, whether it returns or not. -/
def endState : EStateM.Result ε σ α → σ
  | .ok _ s => s
  | .error _ s => s

/-- Apply a map to the state of a result. -/
def mapState (r : σ → σ) : EStateM.Result ε σ α → EStateM.Result ε σ α
  | .ok a s => .ok a (r s)
  | .error e s => .error e (r s)

@[simp] theorem endState_ok (a : α) (s : σ) : endState (.ok a s : EStateM.Result ε σ α) = s := rfl

@[simp] theorem endState_error (e : ε) (s : σ) :
    endState (.error e s : EStateM.Result ε σ α) = s := rfl

@[simp] theorem mapState_ok (r : σ → σ) (a : α) (s : σ) :
    mapState r (.ok a s : EStateM.Result ε σ α) = .ok a (r s) := rfl

theorem bind_apply (x : EStateM ε σ α) (f : α → EStateM ε σ β) (s : σ) :
    (x >>= f) s = match x s with
      | .ok a s' => f a s'
      | .error e s' => .error e s' := rfl

theorem bind_ok {s s' : σ} {a : α} (h : x s = .ok a s') : (x >>= f) s = f a s' := by
  rw [bind_apply, h]

theorem bind_error {s s' : σ} {e : ε} (h : x s = .error e s') :
    (x >>= f) s = .error e s' := by
  rw [bind_apply, h]

theorem bind_eq_ok {s t : σ} {b : β} (h : (x >>= f) s = .ok b t) :
    ∃ a u, x s = .ok a u ∧ f a u = .ok b t := by
  rw [bind_apply] at h
  split at h
  · next a u hx => exact ⟨a, u, hx, h⟩
  · cases h

@[simp] theorem pure_apply (a : α) (s : σ) : (pure a : EStateM ε σ α) s = .ok a s := rfl

@[simp] theorem get_bind_apply (f : σ → EStateM ε σ β) (s : σ) :
    ((get : EStateM ε σ σ) >>= f) s = f s s := rfl

@[simp] theorem modify_bind_apply (g : σ → σ) (f : PUnit → EStateM ε σ β) (s : σ) :
    ((modify g : EStateM ε σ PUnit) >>= f) s = f ⟨⟩ (g s) := rfl

/-! ## How a routine ends -/

/-- From `s`, `x` returns with `P` or leaves early with `E`. -/
def Ends (x : EStateM ε σ α) (P : α → σ → Prop) (E : ε → σ → Prop) (s : σ) : Prop :=
  match x s with
  | .ok a s' => P a s'
  | .error e s' => E e s'

section Ends

variable {P P' : α → σ → Prop} {E E' : ε → σ → Prop} {s : σ}

theorem Ends.mono (h : Ends x P E s) (hP : ∀ a s', P a s' → P' a s')
    (hE : ∀ e s', E e s' → E' e s') : Ends x P' E' s := by
  unfold Ends at *
  split <;> simp_all

/-- Continue after a routine whose end is known, remembering the result. -/
theorem Ends.bind {Q : β → σ → Prop} (h : Ends x P E s)
    (hf : ∀ a s', x s = .ok a s' → P a s' → Ends (f a) Q E s') :
    Ends (x >>= f) Q E s := by
  unfold Ends at h ⊢
  rw [bind_apply]
  cases hr : x s with
  | ok a s' =>
    rw [hr] at h
    exact hf a s' hr h
  | error e s' =>
    rw [hr] at h
    exact h

theorem Ends.and (h : Ends x P E s) (h' : Ends x P' E' s) :
    Ends x (fun a s' => P a s' ∧ P' a s') (fun e s' => E e s' ∧ E' e s') s := by
  unfold Ends at *
  split <;> simp_all

theorem ends_get {f : σ → EStateM ε σ α} : Ends (get >>= f) P E s ↔ Ends (f s) P E s := Iff.rfl

theorem ends_modify {g : σ → σ} {f : PUnit → EStateM ε σ α} :
    Ends (modify g >>= f) P E s ↔ Ends (f ⟨⟩) P E (g s) := Iff.rfl

theorem ends_of_ok {a : α} {s' : σ} (h : x s = .ok a s') :
    Ends x P E s ↔ P a s' := by
  unfold Ends
  rw [h]

theorem ends_of_error {e : ε} {s' : σ} (h : x s = .error e s') :
    Ends x P E s ↔ E e s' := by
  unfold Ends
  rw [h]

theorem ends_ok_iff : Ends x P (fun _ _ => False) s ↔ ∃ a s', x s = .ok a s' ∧ P a s' := by
  unfold Ends
  cases x s <;> simp

instance [∀ a s', Decidable (P a s')] [∀ e s', Decidable (E e s')] : Decidable (Ends x P E s) := by
  unfold Ends
  cases x s <;> infer_instance

end Ends

/-! ## Sequencing -/

/-- A predicate on routines that sequencing preserves. -/
structure Sequenced (G : ∀ {α : Type}, EStateM ε σ α → Prop) : Prop where
  pure : ∀ {α : Type} (a : α), G (pure a : EStateM ε σ α)
  bind : ∀ {α β : Type} {x : EStateM ε σ α} {f : α → EStateM ε σ β},
    G x → (∀ a, G (f a)) → G (x >>= f)

theorem Sequenced.branch {G : ∀ {α : Type}, EStateM ε σ α → Prop} {c : Prop} [Decidable c]
    {x y : EStateM ε σ α} (hx : G x) (hy : G y) : G (if c then x else y) := by
  split <;> assumption

/-! ## Final states related to initial ones -/

/-- The final state of `x` is related to its initial state. -/
def Follows (R : σ → σ → Prop) (x : EStateM ε σ α) : Prop := ∀ s, R s (endState (x s))

theorem Follows.sequenced {R : σ → σ → Prop} (refl : ∀ s, R s s)
    (trans : ∀ {s t u}, R s t → R t u → R s u) : Sequenced (ε := ε) (fun {_} x => Follows R x) where
  pure _ s := refl s
  bind {α β x f} hx hf s := by
    have h := hx s
    rw [bind_apply]
    cases hr : x s with
    | ok a s' =>
      rw [hr] at h
      exact trans h (hf a s')
    | error e s' =>
      rw [hr] at h
      exact h

/-! ## Maps of the state -/

/-- On states with `I`, `x` and the map `r` of the state can be exchanged. -/
def Commutes (r : σ → σ) (I : σ → Prop) (x : EStateM ε σ α) : Prop :=
  ∀ s, I s → x (r s) = mapState r (x s) ∧ I (endState (x s))

theorem Commutes.sequenced {r : σ → σ} {I : σ → Prop} :
    Sequenced (ε := ε) (fun {_} x => Commutes r I x) where
  pure _ s hs := ⟨rfl, hs⟩
  bind {α β x f} hx hf s hs := by
    obtain ⟨he, hi⟩ := hx s hs
    rw [bind_apply, bind_apply, he]
    cases hr : x s with
    | ok a s' =>
      rw [hr] at hi
      exact hf a s' hi
    | error e s' =>
      rw [hr] at hi
      exact ⟨rfl, hi⟩

end Tortoise.Lib
