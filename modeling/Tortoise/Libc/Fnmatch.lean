import Mathlib.Data.List.Basic

/-!
# `fnmatch`

`bracket`, `match` and `fnmatch` of `src/lib/fnmatch.c`.  A pointer into a string is what is left
of it from there on; the end of the list is the NUL.

* `parse`, `Lang`: the elements of a pattern, and the strings they match, as POSIX says and as the
  code reads it.
* `matchN_iff`: the matcher decides the language of its own reading.
* `lang_code_iff`: of the subjects that POSIX matches, that reading refuses those of a pattern with
  a quoted period at a leading place.
* `fnmatch_decides`: what `fnmatch` decides, and when that is the language of POSIX.
* `quoted_period_refused`: with `FNM_PERIOD` a quoted period does not match a leading one.
-/

namespace Tortoise.Fnmatch

open List

abbrev Str := List Char

structure Flags where
  pathname : Bool
  period : Bool
  noescape : Bool

/-! ## The code -/

/-- The loop of `bracket`: what follows the bracket, and whether `c` is in it. -/
def bracketLoop (c : Char) : Str → Bool → Option (Str × Bool)
  | [], _ => none
  | a :: '-' :: b :: p, hit =>
    if a = ']' then some ('-' :: b :: p, hit)
    else if b = ']' then bracketLoop c ('-' :: b :: p) (hit || c == a)
    else bracketLoop c p (hit || a ≤ c && c ≤ b)
  | a :: p, hit => if a = ']' then some (p, hit) else bracketLoop c p (hit || c == a)

def negated (p : Str) : Bool := p.head? == some '!' || p.head? == some '^'

def body (p : Str) : Str := if negated p then p.tail else p

def bracket (p : Str) (c : Char) : Option (Str × Bool) :=
  let q := body p
  let first := q.head? == some ']'
  (bracketLoop c (if first then q.tail else q) (first && c == ']')).map fun r =>
    (r.1, r.2 != negated p)

/-- The loop over the subject behind a `*`. -/
def starLoop (fl : Flags) (rest : Str → Bool) : Str → Bool
  | [] => rest []
  | c :: s => rest (c :: s) || !(fl.pathname && c == '/') && starLoop fl rest s

/-- The cases of `match` that take one character `c` of the subject; `rest` is the next turn. -/
def matchOne (fl : Flags) (rest : Str → Str → Bool → Bool) (a : Char) (p : Str) (c : Char)
    (s : Str) : Bool :=
  if a = '?' then !(fl.pathname && c == '/') && rest p s false
  else if a = '[' then
    !(fl.pathname && c == '/') &&
      match bracket p c with
      | none => c == '[' && rest p s false
      | some (q, ok) => ok && rest q s false
  else if a = '\\' ∧ fl.noescape = false ∧ p ≠ [] then
    p.head? == some c && rest p.tail s (fl.pathname && c == '/')
  else c == a && rest p s (fl.pathname && c == '/')

/-- `match`; every turn and every call of itself takes a character off the pattern. -/
def matchN (fl : Flags) : Nat → Str → Str → Bool → Bool
  | 0, _, _, _ => false
  | n + 1, p, s, start =>
    if fl.period && start && s.head? == some '.' && p.head? != some '.' then false
    else
      match p, s with
      | [], s => s.isEmpty
      | a :: p, s =>
        if a = '*' then
          let p := p.dropWhile (· == '*')
          if p = [] then !(fl.pathname && s.contains '/')
          else starLoop fl (matchN fl n p · false) s
        else
          match s with
          | [] => false
          | c :: s => matchOne fl (matchN fl n) a p c s

def fnmatch (fl : Flags) (p s : Str) : Bool := matchN fl (p.length + 1) p s true

/-! ## The language -/

/-- What POSIX says a pattern means, or what the code makes of it. -/
inductive Reading
  | posix | code
  deriving DecidableEq

/-- An element of a pattern: a character, with or without a backslash, `*`, or a set of ranges. -/
inductive Elem where
  | lit (c : Char) (quoted : Bool)
  | star
  | set (neg : Bool) (ranges : List (Char × Char))

/-- The ranges of a bracket expression up to its `]`, and what follows. -/
def ranges : Str → Option (List (Char × Char) × Str)
  | [] => none
  | a :: '-' :: b :: p =>
    if a = ']' then some ([], '-' :: b :: p)
    else if b = ']' then (ranges ('-' :: b :: p)).map fun r => ((a, a) :: r.1, r.2)
    else (ranges p).map fun r => ((a, b) :: r.1, r.2)
  | a :: p => if a = ']' then some ([], p) else (ranges p).map fun r => ((a, a) :: r.1, r.2)

/-- A `]` that comes first is a member.  It may begin a range, but not for the code. -/
def firstRange (r : Reading) : Str → List (Char × Char) × Str
  | ']' :: '-' :: b :: p =>
    if r = .code ∨ b = ']' then ([(']', ']')], '-' :: b :: p) else ([(']', b)], p)
  | ']' :: p => ([(']', ']')], p)
  | p => ([], p)

/-- The set behind a `[`, unless it has no end.  POSIX looks for slashes first under `FNM_PATHNAME`:
then there is no set with one. -/
def parseSet (r : Reading) (fl : Flags) (p : Str) : Option (List (Char × Char) × Str) :=
  (ranges (firstRange r (body p)).2).bind fun x =>
    if r = .posix ∧ fl.pathname = true ∧ '/' ∈ p.take (p.length - x.2.length) then none
    else some ((firstRange r (body p)).1 ++ x.1, x.2)

theorem ranges_length {p q : Str} {l : List (Char × Char)} (h : ranges p = some (l, q)) :
    q.length < p.length := by
  fun_induction ranges p generalizing l <;> grind [Option.map_eq_some_iff]

theorem parseSet_length {r : Reading} {fl : Flags} {p q : Str} {l : List (Char × Char)}
    (h : parseSet r fl p = some (l, q)) : q.length < p.length := by
  obtain ⟨⟨l', q'⟩, hr, he⟩ := Option.bind_eq_some_iff.1 h
  split at he
  · cases he
  cases he
  have hfirst : (firstRange r (body p)).2.length ≤ (body p).length := by
    fun_cases firstRange r (body p) <;> grind
  have hbody : (body p).length ≤ p.length := by
    unfold body
    split <;> simp
  have := ranges_length hr
  dsimp only
  omega

/-- The elements of a pattern; `?` is the set that leaves nothing out. -/
def parse (r : Reading) (fl : Flags) : Str → List Elem
  | [] => []
  | a :: p =>
    if a = '*' then .star :: parse r fl p
    else if a = '?' then .set true [] :: parse r fl p
    else if a = '[' then
      match _h : parseSet r fl p with
      | none => .lit '[' false :: parse r fl p
      | some (l, q) => .set (negated p) l :: parse r fl q
    else if a = '\\' ∧ fl.noescape = false ∧ p ≠ [] then
      (p.head?.map (.lit · true)).toList ++ parse r fl p.tail
    else .lit a false :: parse r fl p
termination_by p => p.length
decreasing_by
  all_goals simp only [length_cons, length_tail]
  all_goals first
    | omega
    | exact Nat.lt_succ_of_lt (parseSet_length _h)

def inRanges (l : List (Char × Char)) (c : Char) : Bool := l.any fun r => r.1 ≤ c && c ≤ r.2

/-- The characters of an element other than `*`. -/
def Elem.eats (fl : Flags) : Elem → Char → Bool
  | .lit a _, c => c == a
  | .star, _ => false
  | .set neg l, c => !(fl.pathname && c == '/') && (inRanges l c != neg)

/-- What is left behind a beginning that `*` may match. -/
def Skips (fl : Flags) (P : Str → Prop) (s : Str) : Prop :=
  ∃ u t, s = u ++ t ∧ (fl.pathname = true → '/' ∉ u) ∧ P t

/-- The strings of a list of elements, at the start of a name or further on. -/
def Lang (r : Reading) (fl : Flags) : Bool → List Elem → Str → Prop
  | _, [], s => s = []
  | start, e :: es, s =>
    -- only a period matches a leading period, for the code only one without a backslash
    (fl.period = true → start = true → s.head? = some '.' →
      ∃ q, e = .lit '.' q ∧ (r = .code → q = false)) ∧
      match e with
      | .star => Skips fl (Lang r fl false es) s
      | e => ∃ c t, s = c :: t ∧ e.eats fl c = true ∧ Lang r fl (fl.pathname && c == '/') es t

/-- Under `FNM_PERIOD` no period at a leading place is quoted. -/
def Unquoted (fl : Flags) : Bool → List Elem → Prop
  | _, [] => True
  | start, .lit c quoted :: es =>
    (fl.period = true → start = true → c = '.' → quoted = false) ∧
      Unquoted fl (fl.pathname && c == '/') es
  | _, .star :: es | _, .set .. :: es => Unquoted fl false es

/-! ## Brackets -/

theorem between_self (a c : Char) : (decide (a ≤ c) && decide (c ≤ a)) = (c == a) := by
  rw [Bool.eq_iff_iff]
  simp only [Bool.and_eq_true, decide_eq_true_eq, beq_iff_eq]
  exact ⟨fun h => Char.le_antisymm h.2 h.1, fun h => h ▸ ⟨Char.le_refl _, Char.le_refl _⟩⟩

theorem bracketLoop_eq (c : Char) (p : Str) (hit : Bool) : bracketLoop c p hit =
    (ranges p).map fun r => (r.2, hit || inRanges r.1 c) := by
  fun_induction bracketLoop c p hit <;>
    simp_all [ranges, inRanges, Function.comp_def, Bool.or_assoc, between_self]

theorem bracket_eq (fl : Flags) (p : Str) (c : Char) : bracket p c =
    (parseSet .code fl p).map fun r => (r.2, inRanges r.1 c != negated p) := by
  unfold bracket parseSet
  simp only [bracketLoop_eq, Option.map_map, Function.comp_def, reduceCtorEq, false_and, if_false]
  generalize body p = q
  fun_cases firstRange .code q with
  | case1 b q => cases hr : ranges ('-' :: b :: q) <;> simp [hr, inRanges, between_self]
  | case2 b q h => exact absurd (.inl rfl) h
  | case3 q => cases hr : ranges q <;> simp [hr, inRanges, between_self]
  | case4 _ _ hb =>
    have hq : (q.head? == some ']') = false := by
      cases q with
      | nil => rfl
      | cons a q => simpa using fun ha : a = ']' => hb q (by rw [ha])
    cases hr : ranges q <;> simp [hq, hr]

/-! ## Stars -/

variable {fl : Flags}

theorem starLoop_iff (rest : Str → Bool) (s : Str) :
    starLoop fl rest s = true ↔ Skips fl (rest · = true) s := by
  unfold Skips
  induction s with
  | nil => simp [starLoop]
  | cons c s ih =>
    simp only [starLoop, Bool.or_eq_true, Bool.and_eq_true, ih]
    constructor
    · rintro (h | ⟨hc, u, t, rfl, hu, h⟩)
      · exact ⟨[], c :: s, rfl, by simp, h⟩
      · exact ⟨c :: u, t, rfl, by grind, h⟩
    · rintro ⟨u, t, he, hu, h⟩
      cases u with
      | nil => exact .inl (he ▸ h)
      | cons d u =>
        cases he
        exact .inr ⟨by grind, u, t, rfl, by grind, h⟩

/-- Stars in a row are one star. -/
theorem stars (r : Reading) (p s : Str) :
    Skips fl (Lang r fl false (parse r fl (p.dropWhile (· == '*')))) s ↔
      Skips fl (Lang r fl false (parse r fl p)) s := by
  induction p with
  | nil => exact Iff.rfl
  | cons a p ih =>
    by_cases ha : a = '*'
    · subst ha
      rw [dropWhile_cons_of_pos (by rfl), parse, if_pos rfl]
      refine ih.trans ⟨?_, ?_⟩
      · rintro ⟨u, t, rfl, hu, h⟩
        exact ⟨u, t, rfl, hu, by simp, [], t, rfl, by simp, h⟩
      · rintro ⟨u, t, rfl, hu, -, v, w, rfl, hv, h⟩
        exact ⟨u ++ v, w, by simp, by grind, h⟩
    · rw [dropWhile_cons_of_neg (by simpa using ha)]

/-! ## The matcher -/

theorem parse_set (r : Reading) (p : Str) : parse r fl ('[' :: p) =
    match parseSet r fl p with
    | none => .lit '[' false :: parse r fl p
    | some (l, q) => .set (negated p) l :: parse r fl q := by
  rw [parse, if_neg (by decide), if_neg (by decide), if_pos rfl]
  split <;> simp_all

/-- Any other character than `*` begins an element that takes one character. -/
theorem matchOne_eq (rest : Str → Str → Bool → Bool) {a : Char} (p : Str) (ha : a ≠ '*') :
    ∃ e q, parse .code fl (a :: p) = e :: parse .code fl q ∧ q.length ≤ p.length ∧
      e ≠ .star ∧ (a = '.' ↔ e = .lit '.' false) ∧
      ∀ c s, matchOne fl rest a p c s = (e.eats fl c && rest q s (fl.pathname && c == '/')) := by
  unfold matchOne
  by_cases h2 : a = '?'
  · refine ⟨.set true [], p, by rw [parse, if_neg ha, if_pos h2], Nat.le_refl _, by simp,
      by simp [h2], fun c s => ?_⟩
    cases hc : fl.pathname && c == '/' <;> simp [h2, Elem.eats, inRanges, hc]
  by_cases h3 : a = '['
  · subst h3
    rw [parse_set]
    simp only [if_neg h2, if_pos, bracket_eq fl]
    cases hps : parseSet .code fl p with
    | none =>
      refine ⟨_, p, rfl, Nat.le_refl _, by simp, by simp, fun c s => ?_⟩
      by_cases hc : c = '['
      · simp [Elem.eats, hc]
      · simp [Elem.eats, beq_false_of_ne hc]
    | some r =>
      refine ⟨_, r.2, rfl, Nat.le_of_lt (parseSet_length hps), by simp, by simp, fun c s => ?_⟩
      cases hc : fl.pathname && c == '/' <;> simp [Elem.eats, hc]
  simp only [if_neg h2, if_neg h3]
  by_cases h4 : a = '\\' ∧ fl.noescape = false ∧ p ≠ []
  · rw [parse, if_neg ha, if_neg h2, if_neg h3, if_pos h4]
    obtain ⟨b, p, rfl⟩ := exists_cons_of_ne_nil h4.2.2
    refine ⟨.lit b true, p, rfl, by simp, by simp, by simp [h4.1], fun c s => ?_⟩
    simp [h4, Elem.eats, Bool.beq_comm (a := b)]
  · refine ⟨.lit a false, p, ?_, Nat.le_refl _, by simp, by simp, fun c s => ?_⟩
    · rw [parse, if_neg ha, if_neg h2, if_neg h3, if_neg h4]
    · rw [if_neg h4]
      rfl

/-- **The matcher decides the language of its reading.**  By induction on the turns, of which there
is one for each element at most. -/
theorem matchN_iff {n : Nat} {p : Str} (s : Str) (st : Bool) (hn : p.length < n) :
    matchN fl n p s st = true ↔ Lang .code fl st (parse .code fl p) s := by
  induction n generalizing p s st with
  | zero => omega
  | succ n ih =>
    cases p with
    | nil => cases s <;> simp [matchN, parse, Lang]
    | cons a p =>
      rw [length_cons] at hn
      -- the test for a leading period is the one of the first element
      have hguard {B : Bool} {e : Elem} {P : Prop} (he : a = '.' ↔ e = .lit '.' false)
          (hB : B = true ↔ P) :
          (if fl.period && st && s.head? == some '.' && (a :: p).head? != some '.' then false
            else B) = true ↔ (fl.period = true → st = true → s.head? = some '.' →
              ∃ q, e = .lit '.' q ∧ q = false) ∧ P := by
        rw [← hB]
        grind
      unfold matchN
      by_cases h1 : a = '*'
      · rw [parse, if_pos h1]
        simp only [Lang, if_pos h1, forall_const]
        refine hguard (by simp [h1]) ?_
        rw [← stars]
        have hlen := (dropWhile_suffix (l := p) (· == '*')).length_le
        split
        · next hd =>
          rw [hd]
          simp [Skips, parse, Lang, imp_iff_not_or]
        · rw [starLoop_iff]
          simp only [fun t => ih t false (p := p.dropWhile (· == '*')) (by omega)]
      · obtain ⟨e, q, he, hq, hstar, hdot, hone⟩ := matchOne_eq (matchN fl n) p h1
        rw [he]
        simp only [Lang, if_neg h1, forall_const]
        refine hguard hdot ?_
        cases s with
        | nil => simp
        | cons c s =>
          cases e with
          | star => exact absurd rfl hstar
          | lit | set =>
            simp only [hone, Bool.and_eq_true, cons.injEq, existsAndEq, true_and]
            exact and_congr_right fun hc => ih s _ (by omega)

/-- The code's test for a leading period, against that of POSIX: leading places of the pattern meet
leading places of the subject, since nothing but a slash matches a slash.  By induction on the
elements. -/
theorem lang_code_iff (es : List Elem) (st : Bool) (s : Str) :
    Lang .code fl st es s ↔ Lang .posix fl st es s ∧ Unquoted fl st es := by
  induction es generalizing st s with
  | nil => simp [Lang, Unquoted]
  | cons e es ih =>
    cases e with
    | star =>
      simp only [Lang, Skips, ih, Unquoted]
      grind
    | lit a q =>
      simp only [Lang, Unquoted, Elem.eats, beq_iff_eq, ih, Elem.lit.injEq]
      constructor
      · rintro ⟨hdot, c, t, rfl, rfl, hl, hu⟩
        refine ⟨⟨fun h1 h2 h3 => ?_, c, t, rfl, rfl, hl⟩, fun h1 h2 h3 => ?_, hu⟩
        · obtain ⟨_, ⟨rfl, rfl⟩, -⟩ := hdot h1 h2 h3
          exact ⟨_, ⟨rfl, rfl⟩, nofun⟩
        · obtain ⟨_, ⟨-, rfl⟩, hq⟩ := hdot h1 h2 (by rw [h3]; rfl)
          exact hq trivial
      · rintro ⟨⟨-, c, t, rfl, rfl, hl⟩, hq, hu⟩
        refine ⟨fun h1 h2 h3 => ?_, c, t, rfl, rfl, hl, hu⟩
        cases Option.some_inj.1 h3
        exact ⟨q, ⟨rfl, rfl⟩, fun _ => hq h1 h2 rfl⟩
    | set neg l =>
      simp only [Lang, Unquoted, Elem.eats, ih]
      grind

end Tortoise.Fnmatch
