import Mathlib.Data.BitVec
import Mathlib.Tactic.Ring
import Mathlib.Tactic.Cases

/-!
# Cursors over memory against parsers over lists

A decoder walks a pointer through a 32-bit memory up to an end pointer, may rewrite the bytes
it has passed, and computes its bounds checks modulo `2 ^ 32`.  A parser reads the same bytes
as a list and has no addresses.

* `Decoder` and `Parser`: the two, as state monads over `Option`;
* `Sim e d I R B`: the decoder `d` with end pointer `e` follows the parser `I`: where `I`
  succeeds so does `d`, on the corresponding bytes and with results related by `R`; where `I`
  fails, `d` fails or has wrapped past the top of the address space; and `d` never moves by more
  than `B` bytes;
* `times`: a computation repeated; `pair`: two parsers in a row; `Fixed`: a parser of fixed width;
* `Sim.accepts`, `Sim.complete`: a decoder that cannot come round the address space and stops at
  the end pointer has read what the parser reads to the end of the list, and conversely.
-/

namespace Tortoise.Lib.Cursor

open BitVec List

variable {e p : BitVec 32} {B k n w B₁ B₂ : Nat} {σ : Type}

/-- A byte-addressed memory of 32-bit addresses. -/
abbrev Mem := BitVec 32 → BitVec 8

variable {m m' : Mem}

/-- The `n` bytes from `p` on. -/
def window (m : Mem) (p : BitVec 32) (n : Nat) : List (BitVec 8) :=
  (List.range n).map fun i => m (p + BitVec.ofNat 32 i)

/-- The bytes from `p` up to `e`. -/
def ahead (m : Mem) (p e : BitVec 32) : List (BitVec 8) := window m p (e.toNat - p.toNat)

/-- A computation on a memory and a pointer into it. -/
abbrev Decoder (α : Type) := StateT (Mem × BitVec 32) Option α

/-- A computation on the bytes not read yet. -/
abbrev Parser (β : Type) := StateT (List (BitVec 8)) Option β

/-- The computation `x`, `n` times. -/
def times {σ α : Type} (x : StateT σ Option α) : Nat → StateT σ Option (List α)
  | 0 => pure []
  | n + 1 => do
    let a ← x
    let as ← times x n
    pure (a :: as)

/-- Two parsers in a row. -/
def pair {α β : Type} (I : Parser α) (J : Parser β) : Parser (α × β) := do
  let a ← I
  let b ← J
  pure (a, b)

/-- The parser takes `w` bytes, whatever they are, and `v` is what it makes of them. -/
structure Fixed {β : Type} (I : Parser β) (w : Nat) (v : List (BitVec 8) → β) : Prop where
  eq : ∀ l, I l = if l.length < w then none else some (v l, l.drop w)
  take : ∀ l, v (l.take w) = v l

/-! ## Windows -/

@[simp] theorem length_window (m : Mem) (p : BitVec 32) (n : Nat) : (window m p n).length = n := by
  simp [window]

@[simp] theorem length_ahead (m : Mem) (p e : BitVec 32) :
    (ahead m p e).length = e.toNat - p.toNat := length_window ..

theorem ahead_self (m : Mem) (e : BitVec 32) : ahead m e e = [] := by
  simp [ahead, window]

theorem getElem_window {i : Nat} (h : i < (window m p n).length) :
    (window m p n)[i] = m (p + BitVec.ofNat 32 i) := by
  simp [window]

theorem window_congr (h : ∀ i < n, m' (p + BitVec.ofNat 32 i) = m (p + BitVec.ofNat 32 i)) :
    window m' p n = window m p n :=
  map_congr_left fun i hi => h i (mem_range.mp hi)

theorem window_add (m : Mem) (p : BitVec 32) (k n : Nat) :
    window m p (k + n) = window m p k ++ window m (p + BitVec.ofNat 32 k) n := by
  apply ext_getElem (by simp)
  intro i h h'
  rw [getElem_window, List.getElem_append]
  split
  · rw [getElem_window]
  case isFalse hk =>
    rw [getElem_window]
    simp only [length_window] at hk ⊢
    congr 1
    rw [BitVec.add_assoc, ← ofNat_add]
    congr 2
    omega

theorem take_window (h : k ≤ n) : (window m p n).take k = window m p k := by
  obtain ⟨r, rfl⟩ := Nat.exists_eq_add_of_le h
  rw [window_add, take_left' (length_window ..)]

theorem drop_window (h : k ≤ n) :
    (window m p n).drop k = window m (p + BitVec.ofNat 32 k) (n - k) := by
  obtain ⟨r, rfl⟩ := Nat.exists_eq_add_of_le h
  rw [window_add, drop_left' (length_window ..), Nat.add_sub_cancel_left]

/-- Moving up by what lies below the end stays below the end. -/
theorem toNat_add_ofNat (h : p.toNat + k < 2 ^ 32) :
    (p + BitVec.ofNat 32 k).toNat = p.toNat + k := by
  rw [toNat_add, toNat_ofNat]
  omega

theorem take_ahead (h : p.toNat + k ≤ e.toNat) :
    (ahead m p e).take k = window m p k := take_window (by omega)

theorem drop_ahead (h : p.toNat + k ≤ e.toNat) :
    (ahead m p e).drop k = ahead m (p + BitVec.ofNat 32 k) e := by
  have hp := toNat_add_ofNat (p := p) (k := k) (by have := e.isLt; omega)
  rw [ahead, drop_window (by omega), ahead, hp, Nat.sub_sub]

/-- A buffer is its first `k` bytes and the bytes ahead of the pointer behind them. -/
theorem window_eq_append_ahead (m : Mem) {buf size : BitVec 32} (hk : k ≤ size.toNat)
    (hle : buf.toNat + size.toNat < 2 ^ 32) :
    (buf + BitVec.ofNat 32 k).toNat = buf.toNat + k ∧
      (buf + size).toNat = buf.toNat + size.toNat ∧
      window m buf size.toNat =
        window m buf k ++ ahead m (buf + BitVec.ofNat 32 k) (buf + size) := by
  have hp : (buf + BitVec.ofNat 32 k).toNat = buf.toNat + k := toNat_add_ofNat (by omega)
  have he : (buf + size).toNat = buf.toNat + size.toNat := by
    rw [toNat_add]
    omega
  refine ⟨hp, he, ?_⟩
  rw [ahead, hp, he, Nat.add_sub_add_left, ← window_add, Nat.add_sub_cancel' hk]

theorem ahead_congr (h : ∀ x, p.toNat ≤ x.toNat → m' x = m x) : ahead m' p e = ahead m p e := by
  refine window_congr fun i hi => h _ ?_
  have := e.isLt
  rw [toNat_add_ofNat (by omega)]
  omega

/-! ## Simulation -/

/-- A decoder's move from `p` to `p'` below `e`: it left `rest` to read, and it changed the memory
between the two pointers only. -/
structure Moved (e : BitVec 32) (m : Mem) (p : BitVec 32) (m' : Mem) (p' : BitVec 32)
    (rest : List (BitVec 8)) : Prop where
  le : p.toNat ≤ p'.toNat
  le_end : p'.toNat ≤ e.toNat
  rest_eq : rest = ahead m' p' e
  frame : ∀ x, x.toNat < p.toNat ∨ p'.toNat ≤ x.toNat → m' x = m x

/-- The memories agree between the two pointers. -/
def Same (p p' : BitVec 32) (m m' : Mem) : Prop :=
  ∀ x, p.toNat ≤ x.toNat → x.toNat < p'.toNat → m' x = m x

/-- The decoder never moves its pointer by more than `B`. -/
def Drifts (d : Decoder α) (B : Nat) : Prop :=
  ∀ m p a m' p', d (m, p) = some (a, m', p') → ∃ len ≤ B, p' = p + BitVec.ofNat 32 len

/-- The decoder follows the parser.  The relation between the results holds in every memory that
agrees with the decoder's own on the bytes it passed. -/
structure Sim (e : BitVec 32) (d : Decoder α) (I : Parser β) (R : Mem → α → β → Prop) (B : Nat) :
    Prop where
  drift : Drifts d B
  meets : ∀ m p b rest, 0 < p.toNat → p.toNat ≤ e.toNat → I (ahead m p e) = some (b, rest) →
    ∃ a m' p', d (m, p) = some (a, m', p') ∧ Moved e m p m' p' rest ∧
      ∀ m₂, Same p p' m' m₂ → R m₂ a b
  strays : ∀ m p, 0 < p.toNat → p.toNat ≤ e.toNat → I (ahead m p e) = none →
    ∀ a m' p', d (m, p) = some (a, m', p') → p'.toNat + 2 ^ 32 ≤ p.toNat + B

section Rules

variable {α β γ δ : Type} {x : StateT σ Option α} {f : α → StateT σ Option β} {s s' : σ}
  {d : Decoder α} {I : Parser β} {R : Mem → α → β → Prop} {k : α → Decoder γ} {K : β → Parser δ}

theorem bind_eq_some {r : β × σ} :
    (x >>= f) s = some r ↔ ∃ a s', x s = some (a, s') ∧ f a s' = some r :=
  Option.bind_eq_some_iff.trans Prod.exists

theorem bind_eq_none :
    (x >>= f) s = none ↔ x s = none ∨ ∃ a s', x s = some (a, s') ∧ f a s' = none := by
  change (x s >>= fun q => f q.1 q.2) = none ↔ _
  cases hx : x s <;> simp [Prod.eq_iff_fst_eq_snd_eq]

theorem pure_eq_some {a b : α} :
    (pure a : StateT σ Option α) s = some (b, s') ↔ a = b ∧ s = s' := by
  change some (a, s) = some (b, s') ↔ _
  simp

theorem map_eq_some {f : α → β} {b : β} :
    (f <$> x) s = some (b, s') ↔ ∃ a, x s = some (a, s') ∧ f a = b := by
  rw [← bind_pure_comp, bind_eq_some]
  simp only [pure_eq_some]
  constructor
  · rintro ⟨a, _, hx, hf, rfl⟩
    exact ⟨a, hx, hf⟩
  · rintro ⟨a, hx, hf⟩
    exact ⟨a, s', hx, hf, rfl⟩

theorem ite_failure_eq_some {c : Prop} [Decidable c] {r : α × σ} :
    (if c then failure else x) s = some r ↔ ¬c ∧ x s = some r := by
  split_ifs with h
  · exact iff_of_false (fun h' => nomatch h') fun h' => h'.1 h
  · exact (and_iff_right h).symm

theorem Drifts.toNat_le (h : Drifts d B) {p' : BitVec 32} {a : α}
    (hd : d (m, p) = some (a, m', p')) : p'.toNat ≤ p.toNat + B := by
  obtain ⟨len, hlen, rfl⟩ := h _ _ _ _ _ hd
  rw [toNat_add, toNat_ofNat]
  omega

theorem Drifts.bind (h₁ : Drifts d B₁) (h₂ : ∀ a, Drifts (k a) B₂) :
    Drifts (d >>= k) (B₁ + B₂) := by
  intro m p c m' p' h
  obtain ⟨a, ⟨m₁, p₁⟩, hd, hk⟩ := bind_eq_some.mp h
  obtain ⟨n₁, hn₁, rfl⟩ := h₁ _ _ _ _ _ hd
  obtain ⟨n₂, hn₂, rfl⟩ := h₂ _ _ _ _ _ _ hk
  exact ⟨n₁ + n₂, by omega, by rw [ofNat_add, BitVec.add_assoc]⟩

theorem Moved.trans {m₁ m₂ : Mem} {p₁ p₂ : BitVec 32} {r₁ r₂ : List (BitVec 8)}
    (h₁ : Moved e m p m₁ p₁ r₁) (h₂ : Moved e m₁ p₁ m₂ p₂ r₂) : Moved e m p m₂ p₂ r₂ where
  le := h₁.le.trans h₂.le
  le_end := h₂.le_end
  rest_eq := h₂.rest_eq
  frame := by
    intro x hx
    have := h₁.le
    have := h₂.le
    rw [h₂.frame x (by omega), h₁.frame x (by omega)]

theorem Sim.mono {R' : Mem → α → β → Prop} {B' : Nat} (h : Sim e d I R B)
    (hR : ∀ m a b, R m a b → R' m a b) (hB : B ≤ B') : Sim e d I R' B' where
  drift m p a m' p' hd := by
    obtain ⟨len, hlen, rfl⟩ := h.drift _ _ _ _ _ hd
    exact ⟨len, hlen.trans hB, rfl⟩
  meets m p b rest hp he hI := by
    obtain ⟨a, m', p', hd, hm, hr⟩ := h.meets m p b rest hp he hI
    exact ⟨a, m', p', hd, hm, fun m₂ hs => hR _ _ _ (hr m₂ hs)⟩
  strays m p hp he hI a m' p' hd := by
    have := h.strays m p hp he hI a m' p' hd
    omega

theorem Sim.within {B' : Nat} (h : Sim e d I R B) (hB : B ≤ B') : Sim e d I R B' :=
  h.mono (fun _ _ _ h => h) hB

theorem Sim.pure (a : α) (b : β) : Sim e (pure a) (pure b) (fun _ x y => x = a ∧ y = b) 0 where
  drift m p x m' p' h := by
    obtain ⟨rfl, hs⟩ := pure_eq_some.mp h
    obtain ⟨rfl, rfl⟩ := Prod.mk.inj hs
    exact ⟨0, le_rfl, by simp⟩
  meets m p y rest _ he hI := by
    obtain ⟨rfl, rfl⟩ := pure_eq_some.mp hI
    exact ⟨a, m, p, rfl, ⟨le_rfl, he, rfl, fun _ _ => rfl⟩, fun _ _ => ⟨rfl, rfl⟩⟩
  strays m p _ _ hI := by cases hI

/-- The end of a decoder, towards a given relation. -/
theorem Sim.ret {a : α} {b : β} (h : ∀ m, R m a b) : Sim e (Pure.pure a) (Pure.pure b) R 0 := by
  refine (Sim.pure a b).mono ?_ le_rfl
  rintro m _ _ ⟨rfl, rfl⟩
  exact h m

theorem Sim.fail : Sim e (failure : Decoder α) (failure : Parser β) R B where
  drift _ _ _ _ _ h := by cases h
  meets _ _ _ _ _ _ h := by cases h
  strays _ _ _ _ _ _ _ _ h := by cases h

theorem Sim.unless {c : Prop} [Decidable c] (h : ¬c → Sim e d I R B) :
    Sim e (if c then failure else d) (if c then failure else I) R B := by
  split
  · exact .fail
  case isFalse hc => exact h hc

/-- **Sequencing.**  The continuations need to follow each other only on results that `P` relates,
and `P` must leave no result of the decoder out. -/
theorem Sim.bind {S : α → β → Mem → γ → δ → Prop} {P : α → β → Prop} (h : Sim e d I R B₁)
    (hP : ∀ m a b, R m a b → P a b) (htotal : ∀ a, ∃ b, P a b)
    (hk : ∀ a b, P a b → Sim e (k a) (K b) (S a b) B₂) :
    Sim e (d >>= k) (I >>= K) (fun m c c' => ∃ a b, R m a b ∧ S a b m c c') (B₁ + B₂) where
  drift := h.drift.bind fun a => by
    obtain ⟨b, hb⟩ := htotal a
    exact (hk a b hb).drift
  meets m p c' rest hp he hI := by
    obtain ⟨b, rest₁, hI₁, hK⟩ := bind_eq_some.mp hI
    obtain ⟨a, m₁, p₁, hd, hm₁, hr₁⟩ := h.meets m p b rest₁ hp he hI₁
    have hPab : P a b := hP _ _ _ (hr₁ m₁ fun _ _ _ => rfl)
    have hle := hm₁.le
    obtain ⟨c, m₂, p₂, hkc, hm₂, hr₂⟩ := (hk a b hPab).meets m₁ p₁ c' rest (by omega) hm₁.le_end
      (by rw [← hm₁.rest_eq]; exact hK)
    refine ⟨c, m₂, p₂, bind_eq_some.mpr ⟨a, (m₁, p₁), hd, hkc⟩, hm₁.trans hm₂, fun m₃ hs => ?_⟩
    have hle₂ := hm₂.le
    refine ⟨a, b, hr₁ m₃ fun x hx hx' => ?_, hr₂ m₃ fun x hx hx' => hs x (by omega) hx'⟩
    rw [hs x hx (by omega), hm₂.frame x (.inl hx')]
  strays m p hp he hI c m₂ p₂ hdk := by
    obtain ⟨a, ⟨m₁, p₁⟩, hd, hkc⟩ := bind_eq_some.mp hdk
    have hlt := p.isLt
    rcases bind_eq_none.mp hI with hI₁ | ⟨b, rest₁, hI₁, hK⟩
    · -- already past the top: the continuation cannot come round again
      have h₁ := h.strays m p hp he hI₁ a m₁ p₁ hd
      obtain ⟨b, hb⟩ := htotal a
      have h₂ := (hk a b hb).drift.toNat_le hkc
      omega
    · obtain ⟨a', m₁', p₁', hd', hm₁, hr₁⟩ := h.meets m p b rest₁ hp he hI₁
      obtain ⟨rfl, rfl, rfl⟩ : a' = a ∧ m₁' = m₁ ∧ p₁' = p₁ := by simpa [hd] using hd'.symm
      have hPab : P a' b := hP _ _ _ (hr₁ m₁' fun _ _ _ => rfl)
      have hle := hm₁.le
      have h₂ := (hk a' b hPab).strays m₁' p₁' (by omega) hm₁.le_end
        (by rw [← hm₁.rest_eq]; exact hK) c m₂ p₂ hkc
      have h₁ := h.drift.toNat_le hd
      omega

/-- Sequencing where the continuations do not look at the results. -/
theorem Sim.bindAny [Nonempty β] {S : α → β → Mem → γ → δ → Prop} (h : Sim e d I R B₁)
    (hk : ∀ a b, Sim e (k a) (K b) (S a b) B₂) :
    Sim e (d >>= k) (I >>= K) (fun m c c' => ∃ a b, R m a b ∧ S a b m c c') (B₁ + B₂) :=
  h.bind (P := fun _ _ => True) (fun _ _ _ _ => trivial)
    (fun _ => ⟨Classical.arbitrary β, trivial⟩) fun a b _ => hk a b

/-- `bindAny` towards a given relation: the rest may use how the results are related. -/
theorem Sim.thenAny [Nonempty β] {Q : Mem → γ → δ → Prop} (h : Sim e d I R B₁)
    (hk : ∀ a b, Sim e (k a) (K b) (fun m c c' => R m a b → Q m c c') B₂) :
    Sim e (d >>= k) (I >>= K) Q (B₁ + B₂) := by
  refine (h.bindAny hk).mono ?_ le_rfl
  rintro m c c' ⟨a, b, hab, hQ⟩
  exact hQ hab

theorem Sim.times [Nonempty β] (h : Sim e d I R B) (n : Nat) :
    Sim e (times d n) (times I n) (fun m as bs => List.Forall₂ (R m) as bs) (n * B) := by
  induction n with
  | zero =>
    refine (Sim.pure [] []).mono ?_ (by omega)
    rintro m as bs ⟨rfl, rfl⟩
    exact .nil
  | succ n ih =>
    refine (h.bindAny fun a b => ih.bindAny fun as bs => Sim.pure (a :: as) (b :: bs)).mono ?_
      (by rw [Nat.succ_mul]; omega)
    rintro m xs ys ⟨a, b, hab, as, bs, hs, rfl, rfl⟩
    exact .cons hab hs

/-- Sequencing where the decoder's result determines the parser's: a group of bytes is read at once
and taken apart by the continuation. -/
theorem Sim.bindFixed {v : α → β} {S : α → Mem → γ → δ → Prop}
    (h : Sim e d I (fun _ a b => b = v a) B₁) (hk : ∀ a, Sim e (k a) (K (v a)) (S a) B₂) :
    Sim e (d >>= k) (I >>= K) (fun m c c' => ∃ a, S a m c c') (B₁ + B₂) := by
  refine (h.bind (P := fun a b => b = v a) (S := fun a _ => S a) (fun _ _ _ h => h)
    (fun a => ⟨v a, rfl⟩) (fun a b hab => hab ▸ hk a)).mono ?_ le_rfl
  rintro m c c' ⟨a, b, -, hS⟩
  exact ⟨a, hS⟩

/-- `bindFixed` towards a given relation. -/
theorem Sim.thenFixed {v : α → β} {Q : Mem → γ → δ → Prop}
    (h : Sim e d I (fun _ a b => b = v a) B₁) (hk : ∀ a, Sim e (k a) (K (v a)) Q B₂) :
    Sim e (d >>= k) (I >>= K) Q (B₁ + B₂) := by
  refine (h.bindFixed hk).mono ?_ le_rfl
  rintro m c c' ⟨-, hQ⟩
  exact hQ

/-- **A checked step.**  The decoder compares `p + w` with the end, modulo `2 ^ 32`, and moves by
`w` without storing anything; `g` is what it returns. -/
theorem Sim.step {v : List (BitVec 8) → β} {g : Mem → BitVec 32 → α} (hI : Fixed I w v)
    (hw : w < 2 ^ 32) (hd : ∀ m p, d (m, p) = if p = 0 ∨ p + BitVec.ofNat 32 w > e then none
      else some (g m p, m, p + BitVec.ofNat 32 w))
    (hR : ∀ m m₂ p, p.toNat + w ≤ e.toNat → Same p (p + BitVec.ofNat 32 w) m m₂ →
      R m₂ (g m p) (v (window m p w))) : Sim e d I R w where
  drift m p a m' p' h := by
    rw [hd] at h
    split at h
    · cases h
    · cases h
      exact ⟨w, le_rfl, rfl⟩
  meets m p b rest hp he h := by
    have hlt := e.isLt
    rw [hI.eq] at h
    split at h
    · cases h
    case isFalse hlen =>
      cases h
      rw [length_ahead] at hlen
      have hadd := toNat_add_ofNat (p := p) (k := w) (by omega)
      refine ⟨g m p, m, p + BitVec.ofNat 32 w, ?_, ⟨by omega, by omega, ?_, fun _ _ => rfl⟩,
        fun m₂ hs => ?_⟩
      · rw [hd, if_neg]
        rintro (rfl | h)
        · exact absurd hp (by decide)
        · have : e.toNat < (p + BitVec.ofNat 32 w).toNat := h
          omega
      · exact drop_ahead (by omega)
      · rw [← hI.take, take_ahead (by omega)]
        exact hR m m₂ p (by omega) hs
  strays m p hp he h a m' p' hd' := by
    rw [hd] at hd'
    split at hd'
    · cases hd'
    case isFalse hno =>
      cases hd'
      rw [hI.eq] at h
      split at h
      case isTrue hlen =>
        rw [length_ahead] at hlen
        have hle : (p + BitVec.ofNat 32 w).toNat ≤ e.toNat := Nat.le_of_not_lt fun h =>
          hno (.inr h)
        rw [toNat_add, toNat_ofNat] at hle ⊢
        omega
      · cases h

/-! ## Whole runs -/

/-- **A decoder that stops at the end has read what the parser reads.** -/
theorem Sim.accepts (h : Sim e d I R B) (hp : 0 < p.toNat) (he : p.toNat ≤ e.toNat)
    (hB : p.toNat + B < e.toNat + 2 ^ 32) {a : α} (hd : d (m, p) = some (a, m', e)) :
    ∃ b, I (ahead m p e) = some (b, []) ∧ R m' a b := by
  cases hI : I (ahead m p e) with
  | none =>
    have := h.strays m p hp he hI a m' e hd
    omega
  | some q =>
    obtain ⟨b, rest⟩ := q
    obtain ⟨a', m₁, p₁, hd', hm, hr⟩ := h.meets m p b rest hp he hI
    obtain ⟨rfl, rfl, rfl⟩ : a' = a ∧ m₁ = m' ∧ p₁ = e := by simpa [hd] using hd'.symm
    refine ⟨b, ?_, hr m₁ fun _ _ _ => rfl⟩
    rw [hm.rest_eq, ahead_self]

/-- **What the parser reads to the end, the decoder reads and stops there.** -/
theorem Sim.complete (h : Sim e d I R B) (hp : 0 < p.toNat) (he : p.toNat ≤ e.toNat) {b : β}
    (hI : I (ahead m p e) = some (b, [])) : ∃ a m', d (m, p) = some (a, m', e) ∧ R m' a b := by
  obtain ⟨a, m', p', hd, hm, hr⟩ := h.meets m p b [] hp he hI
  have hlen := congrArg List.length hm.rest_eq
  rw [length_ahead, length_nil] at hlen
  have hle := hm.le_end
  have : p' = e := eq_of_toNat_eq (by omega)
  subst this
  exact ⟨a, m', hd, hr m' fun _ _ _ => rfl⟩

end Rules

/-! ## Parsers of fixed width -/

section Parsers

variable {α β : Type} {I : Parser α} {J : Parser β}

theorem Fixed.pair {w' : Nat} {v : List (BitVec 8) → α} {v' : List (BitVec 8) → β}
    (hI : Fixed I w v) (hJ : Fixed J w' v') :
    Fixed (pair I J) (w + w') fun l => (v l, v' (l.drop w)) where
  eq l := by
    by_cases h : l.length < w
    · rw [if_pos (by omega)]
      exact bind_eq_none.mpr (.inl (by rw [hI.eq, if_pos h]))
    have h₁ : I l = some (v l, l.drop w) := by rw [hI.eq, if_neg h]
    by_cases h' : l.length < w + w'
    · rw [if_pos h']
      refine bind_eq_none.mpr (.inr ⟨_, _, h₁, bind_eq_none.mpr (.inl ?_)⟩)
      rw [hJ.eq, if_pos (by rw [length_drop]; omega)]
    · rw [if_neg h']
      refine bind_eq_some.mpr ⟨_, _, h₁, bind_eq_some.mpr ⟨_, _, ?_, rfl⟩⟩
      rw [hJ.eq, if_neg (by rw [length_drop]; omega), drop_drop]
  take l := by
    have hv : v (l.take (w + w')) = v l := by
      rw [← hI.take (l.take (w + w')), take_take, Nat.min_eq_left (Nat.le_add_right w w'),
        hI.take]
    rw [hv, drop_take, Nat.add_sub_cancel_left, hJ.take]

theorem pair_eq_some {l r : List (BitVec 8)} {x : α × β} :
    pair I J l = some (x, r) ↔ ∃ l', I l = some (x.1, l') ∧ J l' = some (x.2, r) := by
  unfold pair
  constructor
  · intro h
    obtain ⟨a, l', ha, h⟩ := bind_eq_some.mp h
    obtain ⟨b, l'', hb, hx⟩ := bind_eq_some.mp h
    obtain ⟨rfl, rfl⟩ := pure_eq_some.mp hx
    exact ⟨l', ha, hb⟩
  · rintro ⟨l', ha, hb⟩
    exact bind_eq_some.mpr ⟨_, _, ha, bind_eq_some.mpr ⟨_, _, hb, rfl⟩⟩

/-- A parser that inverts `print` on what is `ok`, repeated, inverts the printing of lists. -/
theorem times_eq_some {print : α → List (BitVec 8)} {ok : α → Prop}
    (hI : ∀ l a r, I l = some (a, r) ↔ ok a ∧ l = print a ++ r) {l r : List (BitVec 8)}
    {as : List α} :
    times I n l = some (as, r) ↔ (as.length = n ∧ ∀ a ∈ as, ok a) ∧ l = as.flatMap print ++ r := by
  induction n generalizing l as with
  | zero =>
    rw [times, pure_eq_some]
    constructor
    · rintro ⟨rfl, rfl⟩
      simp
    · rintro ⟨⟨h, -⟩, rfl⟩
      simp [length_eq_zero_iff.mp h]
  | succ n ih =>
    rw [times, bind_eq_some]
    constructor
    · rintro ⟨a, l₁, ha, h⟩
      obtain ⟨bs, l₂, hbs, h⟩ := bind_eq_some.mp h
      obtain ⟨rfl, rfl⟩ := pure_eq_some.mp h
      obtain ⟨hok, rfl⟩ := (hI _ _ _).mp ha
      obtain ⟨⟨hlen, hall⟩, rfl⟩ := ih.mp hbs
      refine ⟨⟨by simp [hlen], ?_⟩, by simp⟩
      simpa using ⟨hok, hall⟩
    · rintro ⟨⟨hlen, hall⟩, rfl⟩
      obtain ⟨a, bs, rfl⟩ : ∃ a bs, as = a :: bs := exists_cons_of_length_eq_add_one hlen
      refine ⟨a, bs.flatMap print ++ r, (hI _ _ _).mpr ⟨hall a (by simp), by simp⟩, ?_⟩
      refine bind_eq_some.mpr ⟨bs, r, ih.mpr ⟨⟨by simpa using hlen, ?_⟩, rfl⟩, rfl⟩
      exact fun x hx => hall x (by simp [hx])

end Parsers

end Tortoise.Lib.Cursor
