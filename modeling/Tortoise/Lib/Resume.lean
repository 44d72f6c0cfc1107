import Mathlib

/-!
# Routines that can be interrupted

A routine of a kernel runs until it needs something that is shared: it then makes a *request*,
may have to wait while other routines run, and goes on with the answer.  `Prog` is such a routine,
`System` says how requests are served from the shared state, and `Reach` interleaves any number of
routines in any order.

* `solo` is the result of a routine that is alone, with a private view of the shared state;
  `Ends` says how it gets there, and `Ends.bind` how two routines after each other do.
* `Rule` lists what has to be shown: an invariant that every step keeps and under which every
  answer is the one the routine would get alone.
* `Rule.onWay`: then every routine is on the way to the result it would have alone.
-/

namespace Tortoise.Lib.Resume

open List

/-- A routine: a result, or a request and what to do with its answer. -/
inductive Prog (Q : Type) (A : Q → Type) (α : Type) where
  | done (a : α)
  | ask (q : Q) (k : A q → Prog Q A α)

variable {Q : Type} {A : Q → Type} {α β : Type}

namespace Prog

/-- One routine after the other. -/
def bind (x : Prog Q A α) (f : α → Prog Q A β) : Prog Q A β :=
  match x with
  | .done a => f a
  | .ask q k => .ask q fun a => (k a).bind f

instance : Monad (Prog Q A) where
  pure := .done
  bind := bind

/-- A single request. -/
def request (q : Q) : Prog Q A (A q) := .ask q .done

end Prog

/-! ## Service -/

/-- How requests are served.  The shared state is `σ`; the phase `φ` is how far the service of a
request has come; `ℓ` is what a routine that is alone would know of the shared state. -/
structure System (Q : Type) (A : Q → Type) (σ φ ℓ : Type) where
  /-- The phase in which a request is made. -/
  idle : φ
  /-- A step of the service that does not answer yet. -/
  work : Q → φ → σ → φ → σ → Prop
  /-- A step that answers. -/
  answer : (q : Q) → φ → σ → A q → σ → Prop
  /-- The answer a routine gets that is alone, and its view afterwards. -/
  alone : (q : Q) → ℓ → A q × ℓ

/-- A routine under way: the call it is for, what is left of it and the phase of its request.  The
view is bookkeeping that no step looks at. -/
structure Task (ι : Type) (Q : Type) (A : Q → Type) (α φ ℓ : Type) where
  call : ι
  prog : Prog Q A α
  phase : φ
  view : ℓ

section

variable {ι σ φ ℓ : Type} (S : System Q A σ φ ℓ)

/-- The result of a routine that is alone. -/
def solo (v : ℓ) : Prog Q A α → α
  | .done a => a
  | .ask q k => solo (S.alone q v).2 (k (S.alone q v).1)

theorem solo_ask (v : ℓ) (q : Q) (k : A q → Prog Q A α) :
    solo S v (.ask q k) = solo S (S.alone q v).2 (k (S.alone q v).1) := rfl

/-- Alone, the routine makes only requests that are allowed, and ends with a result and a view that
`post` accepts. -/
def Ends (allowed : Q → ℓ → Prop) (post : α → ℓ → Prop) : ℓ → Prog Q A α → Prop
  | v, .done a => post a v
  | v, .ask q k => allowed q v ∧ Ends allowed post (S.alone q v).2 (k (S.alone q v).1)

variable (code : ι → Prog Q A α) (v₀ : ℓ)

/-- A routine at its beginning. -/
def Task.start (i : ι) : Task ι Q A α φ ℓ := ⟨i, code i, S.idle, v₀⟩

variable (Meets : σ → List (Task ι Q A α φ ℓ) → (q : Q) → A q → Prop)

/-- One step: a new call, some service of a request, or its answer.  `Meets` is a condition on the
shared state and the other tasks under which the request is answered. -/
inductive Step : σ → List (Task ι Q A α φ ℓ) → σ → List (Task ι Q A α φ ℓ) → Prop
  | call (s : σ) (l : List (Task ι Q A α φ ℓ)) (i : ι) :
      Step s l s (Task.start S code v₀ i :: l)
  | work {s s' : σ} {a b : List (Task ι Q A α φ ℓ)} {i : ι} {q : Q} {k : A q → Prog Q A α}
      {p p' : φ} {v : ℓ} : S.work q p s p' s' →
      Step s (a ++ ⟨i, .ask q k, p, v⟩ :: b) s' (a ++ ⟨i, .ask q k, p', v⟩ :: b)
  | answer {s s' : σ} {a b : List (Task ι Q A α φ ℓ)} {i : ι} {q : Q} {k : A q → Prog Q A α}
      {p : φ} {v : ℓ} {x : A q} : S.answer q p s x s' → Meets s (a ++ b) q x →
      Step s (a ++ ⟨i, .ask q k, p, v⟩ :: b) s'
        (a ++ ⟨i, k x, S.idle, (S.alone q v).2⟩ :: b)

/-- The states reached from `s₀`, with no routine under way, by any steps. -/
inductive Reach (s₀ : σ) : σ → List (Task ι Q A α φ ℓ) → Prop
  | start : Reach s₀ s₀ []
  | step {s s' : σ} {l l' : List (Task ι Q A α φ ℓ)} : Reach s₀ s l →
      Step S code v₀ Meets s l s' l' → Reach s₀ s' l'

/-- What has to be shown: an invariant that steps keep and under which the answers are those the
routine would get alone. -/
structure Rule (s₀ : σ) (Inv : σ → List (Task ι Q A α φ ℓ) → Prop) : Prop where
  start : Inv s₀ []
  call : ∀ {s l} i, Inv s l → Inv s (Task.start S code v₀ i :: l)
  work : ∀ {s s' a b i q k p p' v}, Inv s (a ++ ⟨i, .ask q k, p, v⟩ :: b) →
    S.work q p s p' s' → Inv s' (a ++ ⟨i, .ask q k, p', v⟩ :: b)
  answer : ∀ {s s' a b i q k p v x}, Inv s (a ++ ⟨i, .ask q k, p, v⟩ :: b) →
    S.answer q p s x s' → Meets s (a ++ b) q x →
    x = (S.alone q v).1 ∧ Inv s' (a ++ ⟨i, k x, S.idle, (S.alone q v).2⟩ :: b)

variable {S code v₀ Meets} {s₀ s : σ} {l : List (Task ι Q A α φ ℓ)}
  {Inv : σ → List (Task ι Q A α φ ℓ) → Prop}

theorem Ends.bind {allowed : Q → ℓ → Prop} {post : α → ℓ → Prop} {post' : β → ℓ → Prop} {v : ℓ}
    {x : Prog Q A α} {f : α → Prog Q A β} (hx : Ends S allowed post v x)
    (hf : ∀ a v', post a v' → Ends S allowed post' v' (f a)) :
    Ends S allowed post' v (x >>= f) := by
  induction x generalizing v with
  | done a => exact hf a v hx
  | ask q k ih => exact ⟨hx.1, ih _ hx.2⟩

theorem Ends.mono {allowed : Q → ℓ → Prop} {post post' : α → ℓ → Prop} {v : ℓ} {x : Prog Q A α}
    (hx : Ends S allowed post v x) (h : ∀ a v', post a v' → post' a v') :
    Ends S allowed post' v x := by
  induction x generalizing v with
  | done a => exact h a v hx
  | ask q k ih => exact ⟨hx.1, ih _ hx.2⟩

/-- The routine is on the way to the result it would have alone. -/
def OnWay (S : System Q A σ φ ℓ) (code : ι → Prog Q A α) (v₀ : ℓ) (t : Task ι Q A α φ ℓ) : Prop :=
  solo S t.view t.prog = solo S v₀ (code t.call)

theorem forall_middle {T : Type} {P : T → Prop} {u : T} {a b : List T} :
    (∀ t ∈ a ++ u :: b, P t) ↔ P u ∧ ∀ t ∈ a ++ b, P t := by
  rw [← forall_mem_cons]
  exact forall_congr' fun t => imp_congr_left perm_middle.mem_iff

theorem Rule.onWay (h : Rule S code v₀ Meets s₀ Inv) (hr : Reach S code v₀ Meets s₀ s l) :
    Inv s l ∧ ∀ t ∈ l, OnWay S code v₀ t := by
  induction hr with
  | start => exact ⟨h.start, by simp⟩
  | step _ hstep ih =>
    obtain ⟨hinv, hway⟩ := ih
    cases hstep with
    | call _ i => exact ⟨h.call i hinv, forall_mem_cons.2 ⟨rfl, hway⟩⟩
    | work hw =>
      obtain ⟨hown, hothers⟩ := forall_middle.1 hway
      exact ⟨h.work hinv hw, forall_middle.2 ⟨hown, hothers⟩⟩
    | answer ha hm =>
      obtain ⟨hx, hinv'⟩ := h.answer hinv ha hm
      obtain ⟨hown, hothers⟩ := forall_middle.1 hway
      refine ⟨hinv', forall_middle.2 ⟨?_, hothers⟩⟩
      unfold OnWay at hown ⊢
      rw [solo_ask, ← hx] at hown
      exact hown

end

end Tortoise.Lib.Resume
